import BabOs.Library.Strings

/-!
# The image of the ramdisk

This module embeds `mkinitrd.py`, and says where the parts of an image lie once
it has been loaded.  An exception of the script is `none`.
-/

namespace BabOs.Initrd

open Memory

/-! ## The packer -/

structure File where
  path : List Char
  content : List UInt8

def File.baseName (f : File) : List Char :=
  (f.path.splitOn '/').getLastD []

/-- The name that is packed, of at most 63 characters. -/
def File.name (f : File) : List Char :=
  if 63 < f.baseName.length then f.baseName.take 63 else f.baseName

/-- `ord(c)` as a byte. -/
def asciiByte (c : Char) : UInt8 := UInt8.ofNat c.toNat

/-- `name.encode('ascii')` -/
def encodeAscii (name : List Char) : Option (List UInt8) :=
  if name.all fun c => c.toNat < 128 then some (name.map asciiByte) else none

/-- `struct.pack('<I', n)` -/
def packI (n : ℕ) : Option (List UInt8) :=
  if n < 2 ^ 32 then some (wordBytes n) else none

/-- `struct.pack('<64s', name)` -/
def pack64s (name : List UInt8) : List UInt8 :=
  name.take 64 ++ List.replicate (64 - name.length) 0

/-- `struct.pack('<I64sII', 0xBF, name, offset, length)` -/
def packHeader (name : List UInt8) (offset length : ℕ) :
    Option (List UInt8) := do
  let magic ← packI 0xBF
  let offset ← packI offset
  let length ← packI length
  some (magic ++ pack64s name ++ offset ++ length)

/-- The loop over the files; `open` refuses a path with a null character. -/
def packHeaders : (offset : ℕ) → List File → Option (List (List UInt8))
  | _, [] => some []
  | offset, f :: files => do
      if '\x00' ∈ f.path then none
      else
        let name ← encodeAscii f.name
        let header ← packHeader name offset f.content.length
        let headers ← packHeaders (offset + f.content.length) files
        some (header :: headers)

/-- What `main` writes for the files on the command line; `none` also stands for
no image, when there is no file. -/
def mkinitrd (files : List File) : Option (List UInt8) :=
  if files.length + 2 < 3 then none
  else do
    let headers ← packHeaders (4 + files.length * 76) files
    let count ← packI files.length
    some (count ++ headers.flatten ++ (files.map File.content).flatten)

/-! ## Names and offsets -/

def File.text (f : File) : List UInt8 := f.name.map asciiByte

section Names

variable {f : File} {name : List Char}

theorem length_name (f : File) : f.name.length ≤ 63 := by
  rw [File.name]
  split_ifs with h
  · exact List.length_take_le _ _
  · exact not_lt.mp h

@[simp] theorem length_text (f : File) : f.text.length = f.name.length :=
  List.length_map _

/-- A name that fits is not cut. -/
theorem name_eq (h : f.baseName.length ≤ 63) : f.name = f.baseName :=
  if_neg (not_lt.mpr h)

theorem toNat_asciiByte {c : Char} (h : c.toNat < 128) :
    (asciiByte c).toNat = c.toNat := by
  rw [asciiByte, UInt8.toNat_ofNat']
  omega

/-- A byte of an ASCII character is `0` for the null character only. -/
theorem asciiByte_eq_zero_iff {c : Char} (h : c.toNat < 128) :
    asciiByte c = 0 ↔ c = '\x00' := by
  rw [← UInt8.toNat_inj, toNat_asciiByte h]
  constructor
  · intro hzero
    exact Char.toNat_inj.mp hzero
  · rintro rfl
    rfl

theorem mem_of_mem_splitOnP {α : Type*} {p : α → Bool} {xs part : List α}
    {a : α} (hpart : part ∈ xs.splitOnP p) (ha : a ∈ part) : a ∈ xs := by
  induction xs generalizing part with
  | nil =>
      rw [List.splitOnP_nil, List.mem_singleton] at hpart
      rwa [hpart] at ha
  | cons x xs ih =>
      rw [List.splitOnP_cons_eq_if_modifyHead] at hpart
      split_ifs at hpart
      · rcases List.mem_cons.mp hpart with rfl | hrest
        · cases ha
        · exact List.mem_cons_of_mem x (ih hrest ha)
      · obtain ⟨first, rest, hsplit⟩ :=
          List.exists_cons_of_ne_nil (List.splitOnP_ne_nil p xs)
        rw [hsplit, List.modifyHead_cons] at hpart
        rcases List.mem_cons.mp hpart with rfl | hrest
        · rcases List.mem_cons.mp ha with rfl | ha
          · exact List.mem_cons_self
          · exact List.mem_cons_of_mem x (ih (hsplit ▸ List.mem_cons_self) ha)
        · exact List.mem_cons_of_mem x
            (ih (hsplit ▸ List.mem_cons_of_mem first hrest) ha)

/-- The characters of a name are characters of the path. -/
theorem mem_path_of_mem_name {c : Char} (h : c ∈ f.name) : c ∈ f.path := by
  have hbase : c ∈ f.baseName := by
    rw [File.name] at h
    split_ifs at h
    · exact List.mem_of_mem_take h
    · exact h
  have hne : f.path.splitOn '/' ≠ [] := List.splitOnP_ne_nil _ _
  rw [File.baseName, List.getLastD_eq_getLast?,
    List.getLast?_eq_getLast_of_ne_nil hne, Option.getD_some] at hbase
  exact mem_of_mem_splitOnP (List.getLast_mem hne) hbase

end Names

/-! ## What the packer makes -/

def headerBytes (name : List UInt8) (offset length : ℕ) : List UInt8 :=
  wordBytes 0xBF ++ pack64s name ++ wordBytes offset ++ wordBytes length

structure File.Packable (f : File) : Prop where
  path : '\x00' ∉ f.path
  name : ∀ c ∈ f.name, c.toNat < 128

/-- The content of a file begins after `offset` and the contents before it. -/
def offsetFrom (offset : ℕ) (files : List File) (i : ℕ) : ℕ :=
  offset + ((files.take i).map fun f => f.content.length).sum

section Packer

variable {f : File} {files : List File} {offset i : ℕ} {image : List UInt8}
variable {headers : List (List UInt8)} {m : Memory} {location : ℕ}

@[simp] theorem length_pack64s (name : List UInt8) :
    (pack64s name).length = 64 := by
  rw [pack64s, List.length_append, List.length_take, List.length_replicate]
  omega

@[simp] theorem length_headerBytes (name : List UInt8) (offset length : ℕ) :
    (headerBytes name offset length).length = 76 := by
  simp [headerBytes]

theorem packI_eq_some_iff {n : ℕ} {bytes : List UInt8} :
    packI n = some bytes ↔ n < 2 ^ 32 ∧ bytes = wordBytes n := by
  rw [packI]
  split_ifs with h
  · rw [Option.some.injEq, eq_comm]
    exact ⟨fun hbytes => ⟨h, hbytes⟩, fun hboth => hboth.2⟩
  · exact iff_of_false (by simp) fun hboth => h hboth.1

theorem packHeader_eq_some_iff {name header : List UInt8} {length : ℕ} :
    packHeader name offset length = some header ↔
      offset < 2 ^ 32 ∧ length < 2 ^ 32 ∧
        header = headerBytes name offset length := by
  have hmagic : packI 0xBF = some (wordBytes 0xBF) := if_pos (by norm_num)
  simp only [packHeader, hmagic, Option.bind_eq_bind, Option.bind_some,
    Option.bind_eq_some_iff, packI_eq_some_iff, Option.some.injEq]
  constructor
  · rintro ⟨_, ⟨hoffset, rfl⟩, _, ⟨hlength, rfl⟩, rfl⟩
    exact ⟨hoffset, hlength, rfl⟩
  · rintro ⟨hoffset, hlength, rfl⟩
    exact ⟨_, ⟨hoffset, rfl⟩, _, ⟨hlength, rfl⟩, rfl⟩

theorem encodeAscii_eq_some_iff {name : List Char} {bytes : List UInt8} :
    encodeAscii name = some bytes ↔
      (∀ c ∈ name, c.toNat < 128) ∧ bytes = name.map asciiByte := by
  simp only [encodeAscii, List.all_eq_true, decide_eq_true_eq]
  split_ifs with h
  · rw [Option.some.injEq, eq_comm]
    exact ⟨fun hbytes => ⟨h, hbytes⟩, fun hboth => hboth.2⟩
  · exact iff_of_false (by simp) fun hboth => h hboth.1

theorem packHeaders_cons_iff :
    packHeaders offset (f :: files) = some headers ↔
      f.Packable ∧ offset < 2 ^ 32 ∧ f.content.length < 2 ^ 32 ∧
        ∃ rest, packHeaders (offset + f.content.length) files = some rest ∧
          headers = headerBytes f.text offset f.content.length :: rest := by
  rw [packHeaders]
  split_ifs with hpath
  · constructor
    · intro h
      cases h
    · rintro ⟨hpack, -⟩
      exact absurd hpath hpack.path
  · simp only [Option.bind_eq_bind, Option.bind_eq_some_iff,
      encodeAscii_eq_some_iff, packHeader_eq_some_iff, Option.some.injEq]
    constructor
    · rintro ⟨_, ⟨hname, rfl⟩, _, ⟨hoffset, hlength, rfl⟩, rest, hrest, rfl⟩
      exact ⟨⟨hpath, hname⟩, hoffset, hlength, rest, hrest, rfl⟩
    · rintro ⟨hpack, hoffset, hlength, rest, hrest, rfl⟩
      exact ⟨_, ⟨hpack.name, rfl⟩, _, ⟨hoffset, hlength, rfl⟩, rest, hrest, rfl⟩

theorem packHeaders_eq_some (h : packHeaders offset files = some headers) :
    headers.length = files.length ∧ (∀ f ∈ files, f.Packable) ∧
      ∀ i f, files[i]? = some f →
        offsetFrom offset files i < 2 ^ 32 ∧ f.content.length < 2 ^ 32 ∧
          headers[i]? = some (headerBytes f.text (offsetFrom offset files i)
            f.content.length) := by
  induction files generalizing offset headers with
  | nil =>
      obtain rfl : [] = headers := Option.some.inj h
      exact ⟨rfl, by simp, fun i f hi => by cases hi⟩
  | cons f files ih =>
      obtain ⟨hpack, hoffset, hlength, rest, hrest, rfl⟩ :=
        packHeaders_cons_iff.mp h
      obtain ⟨hlen, hpacks, hheaders⟩ := ih hrest
      refine ⟨by simp [hlen], ?_, fun i g hi => ?_⟩
      · rw [List.forall_mem_cons]
        exact ⟨hpack, hpacks⟩
      · cases i with
        | zero =>
            obtain rfl : f = g := Option.some.inj hi
            exact ⟨hoffset, hlength, rfl⟩
        | succ i =>
            have hnext : offsetFrom offset (f :: files) (i + 1) =
                offsetFrom (offset + f.content.length) files i := by
              rw [offsetFrom, offsetFrom, List.take_succ_cons, List.map_cons,
                List.sum_cons, add_assoc]
            rw [hnext]
            exact hheaders i g hi

theorem exists_packHeaders (hpack : ∀ f ∈ files, f.Packable)
    (hlt : offsetFrom offset files files.length < 2 ^ 32) :
    ∃ headers, packHeaders offset files = some headers := by
  induction files generalizing offset with
  | nil => exact ⟨[], rfl⟩
  | cons f files ih =>
      rw [List.forall_mem_cons] at hpack
      rw [offsetFrom, List.take_length, List.map_cons, List.sum_cons] at hlt
      obtain ⟨rest, hrest⟩ := @ih (offset + f.content.length) hpack.2 (by
        rw [offsetFrom, List.take_length]
        omega)
      exact ⟨_, packHeaders_cons_iff.mpr
        ⟨hpack.1, by omega, by omega, rest, hrest, rfl⟩⟩

/-- The image is the number of files, the headers and the contents. -/
theorem mkinitrd_eq_some_iff :
    mkinitrd files = some image ↔
      files ≠ [] ∧ files.length < 2 ^ 32 ∧
        ∃ headers, packHeaders (4 + files.length * 76) files = some headers ∧
          image = wordBytes files.length ++ headers.flatten ++
            (files.map File.content).flatten := by
  have hcount : files.length + 2 < 3 ↔ files = [] := by
    rw [← List.length_eq_zero_iff]
    omega
  rw [mkinitrd]
  simp only [hcount]
  split_ifs with hempty
  · exact iff_of_false (by simp) fun hboth => hboth.1 hempty
  · simp only [Option.bind_eq_bind, Option.bind_eq_some_iff, packI_eq_some_iff,
      Option.some.injEq]
    constructor
    · rintro ⟨headers, hheaders, _, ⟨hlt, rfl⟩, rfl⟩
      exact ⟨hempty, hlt, headers, hheaders, rfl⟩
    · rintro ⟨-, hlt, headers, hheaders, rfl⟩
      exact ⟨headers, hheaders, _, ⟨hlt, rfl⟩, rfl⟩

theorem length_of_mem_headers (h : packHeaders offset files = some headers)
    {header : List UInt8} (hheader : header ∈ headers) :
    header.length = 76 := by
  obtain ⟨hlen, -, hget⟩ := packHeaders_eq_some h
  obtain ⟨i, hi, rfl⟩ := List.getElem_of_mem hheader
  obtain ⟨-, -, hi'⟩ := hget i files[i] (List.getElem?_eq_getElem (hlen ▸ hi))
  rw [List.getElem?_eq_getElem hi, Option.some.injEq] at hi'
  rw [hi', length_headerBytes]

theorem sum_take_headers (h : packHeaders offset files = some headers)
    (hi : i ≤ files.length) :
    ((headers.take i).map List.length).sum = 76 * i := by
  obtain ⟨hlen, -⟩ := packHeaders_eq_some h
  have hall : ∀ header ∈ headers.take i, header.length = 76 :=
    fun header hheader => length_of_mem_headers h (List.mem_of_mem_take hheader)
  rw [List.map_eq_replicate_iff.mpr hall, List.sum_replicate, List.length_take,
    hlen, Nat.min_eq_left hi, smul_eq_mul, Nat.mul_comm]

theorem length_headers (h : packHeaders offset files = some headers) :
    headers.flatten.length = files.length * 76 := by
  obtain ⟨hlen, -⟩ := packHeaders_eq_some h
  have hsum := sum_take_headers h le_rfl
  rw [← hlen, List.take_length] at hsum
  rw [List.length_flatten, hsum, hlen, Nat.mul_comm]

theorem length_image (h : mkinitrd files = some image) :
    image.length = offsetFrom (4 + files.length * 76) files files.length := by
  obtain ⟨-, -, headers, hheaders, rfl⟩ := mkinitrd_eq_some_iff.mp h
  rw [List.length_append, List.length_append, length_headers hheaders,
    List.length_flatten, length_wordBytes, offsetFrom, List.take_length,
    List.map_map]
  rfl

theorem holds_image (h : mkinitrd files = some image)
    (hm : Holds m location image) :
    Holds m location (wordBytes files.length) ∧
      ∀ i f, files[i]? = some f →
        Holds m (location + 4 + 76 * i) (headerBytes f.text
            (offsetFrom (4 + files.length * 76) files i) f.content.length) ∧
          Holds m (location + offsetFrom (4 + files.length * 76) files i)
            f.content := by
  obtain ⟨-, -, headers, hheaders, rfl⟩ := mkinitrd_eq_some_iff.mp h
  obtain ⟨hlen, -, hget⟩ := packHeaders_eq_some hheaders
  rw [holds_append, holds_append, List.length_append, length_wordBytes,
    length_headers hheaders] at hm
  obtain ⟨⟨hcount, hheads⟩, hcontents⟩ := hm
  refine ⟨hcount, fun i f hi => ⟨?_, ?_⟩⟩
  · have hle : i ≤ files.length := (List.getElem?_eq_some_iff.mp hi).1.le
    have hpart := hheads.flatten (hget i f hi).2.2
    rwa [sum_take_headers hheaders hle] at hpart
  · have hpart := @Holds.flatten _ _ _ hcontents i f.content (by
      rw [List.getElem?_map, hi]
      rfl)
    rw [← List.map_take, List.map_map, add_assoc] at hpart
    exact hpart

end Packer

end BabOs.Initrd
