import BabOs.Initrd.Nodes

/-!
# The mounted ramdisk

`initialise_initrd` turns a loaded image into a mounted one: its directories and
its file nodes stand, and every header holds the address of its content.  The
invariant of the loop is that the files before `i` are mounted and the others
are as they were packed.
-/

namespace BabOs.Initrd

open Memory

/-! ## Addresses -/

/-- The memory of a mounted ramdisk with an image of `size` bytes and `n`
files. -/
def State.region (s : State) (size n : ℕ) : Set ℕ :=
  Set.Ico s.header (s.header + size) ∪
    (Set.Ico s.root (s.root + VfsNode.size) ∪
      (Set.Ico s.dev (s.dev + VfsNode.size) ∪
        Set.Ico s.rootNodes (s.rootNodes + VfsNode.size * n)))

/-- The parts of a mounted ramdisk lie apart. -/
structure Layout (size n : ℕ) (s : State) : Prop where
  fileHeaders : s.fileHeaders = s.header + 4
  image_lt : s.header + size < 2 ^ 32
  headers_le : 4 + n * 76 ≤ size
  root_pos : 0 < s.root
  dev_pos : 0 < s.dev
  nodes_pos : 0 < s.rootNodes
  nodes_le : s.rootNodes + VfsNode.size * n ≤ 2 ^ 32
  root_dev : Disjoint (Set.Ico s.dev (s.dev + VfsNode.size))
    (Set.Ico s.root (s.root + VfsNode.size))
  nodes_apart : Disjoint
    (Set.Ico s.rootNodes (s.rootNodes + VfsNode.size * n))
    (Set.Ico s.header (s.header + size) ∪
      (Set.Ico s.root (s.root + VfsNode.size) ∪
        Set.Ico s.dev (s.dev + VfsNode.size)))
  image_apart : Disjoint
    (Set.Ico s.root (s.root + VfsNode.size) ∪
      Set.Ico s.dev (s.dev + VfsNode.size))
    (Set.Ico s.header (s.header + size))

section Offsets

variable {f : File} {files : List File} {offset i j : ℕ}

theorem offsetFrom_succ (hi : files[i]? = some f) :
    offsetFrom offset files (i + 1) =
      offsetFrom offset files i + f.content.length := by
  rw [offsetFrom, offsetFrom, List.take_add_one, hi, Option.toList_some,
    List.map_append, List.sum_append, List.map_singleton, List.sum_singleton,
    add_assoc]

theorem offsetFrom_mono (hij : i ≤ j) :
    offsetFrom offset files i ≤ offsetFrom offset files j := by
  have htake : files.take i = (files.take j).take i := by
    rw [List.take_take, Nat.min_eq_left hij]
  have hsplit := List.take_append_drop i (files.take j)
  rw [offsetFrom, offsetFrom, ← hsplit, List.map_append, List.sum_append,
    ← htake]
  omega

/-- The content of a file lies between the headers and the end of the
image. -/
theorem offsetFrom_bounds (hi : files[i]? = some f) :
    offset ≤ offsetFrom offset files i ∧
      offsetFrom offset files i + f.content.length ≤
        offsetFrom offset files files.length := by
  have hlt := (List.getElem?_eq_some_iff.mp hi).1
  constructor
  · exact Nat.le_add_right _ _
  · rw [← offsetFrom_succ hi]
    exact offsetFrom_mono hlt

end Offsets

section Layout

variable {size n i j : ℕ} {s : State}

theorem Layout.fileHeader (h : Layout size n s) (hi : i < n) :
    s.fileHeader i = s.header + 4 + 76 * i ∧ 4 + 76 * i + 76 ≤ 4 + n * 76 := by
  have himage := h.image_lt
  have hheaders := h.headers_le
  have hsize : FileHeader.size = 76 := rfl
  rw [State.fileHeader, h.fileHeaders, hsize, uint32_eq_of_lt (by omega)]
  exact ⟨rfl, by omega⟩

theorem Layout.node (h : Layout size n s) (hi : i < n) :
    s.node i = s.rootNodes + 184 * i ∧ 184 * i + 184 ≤ 184 * n := by
  have hnodes := h.nodes_le
  have hsize : VfsNode.size = 184 := rfl
  rw [hsize] at hnodes
  rw [State.node, hsize, uint32_eq_of_lt (by omega)]
  exact ⟨rfl, by omega⟩

theorem Layout.node_subset_nodes (h : Layout size n s) (hi : i < n) :
    Set.Ico (s.node i) (s.node i + VfsNode.size) ⊆
      Set.Ico s.rootNodes (s.rootNodes + VfsNode.size * n) := by
  obtain ⟨hnode, hle⟩ := h.node hi
  have hsize : VfsNode.size = 184 := rfl
  rw [hnode, hsize]
  exact Set.Ico_subset_Ico (by omega) (by omega)

theorem Layout.fileHeader_subset (h : Layout size n s) (hi : i < n) :
    Set.Ico (s.fileHeader i) (s.fileHeader i + 76) ⊆
      Set.Ico s.header (s.header + size) := by
  obtain ⟨hheader, hle⟩ := h.fileHeader hi
  have himage := h.headers_le
  rw [hheader]
  exact Set.Ico_subset_Ico (by omega) (by omega)

theorem Layout.count_lt (h : Layout size n s) : n < 2 ^ 31 := by
  have hnodes := h.nodes_le
  have hsize : VfsNode.size = 184 := rfl
  rw [hsize] at hnodes
  omega

theorem Layout.root_ne_dev (h : Layout size n s) : s.dev ≠ s.root := by
  intro heq
  have hin : s.dev ∈ Set.Ico s.dev (s.dev + VfsNode.size) :=
    ⟨le_rfl, Nat.lt_add_of_pos_right (by decide)⟩
  exact Set.disjoint_left.mp h.root_dev hin (heq ▸ hin)

end Layout

/-! ## Files -/

structure MountedFile (link : Link) (files : List File) (s : State)
    (m : Memory) (i : ℕ) (f : File) : Prop where
  node : FileNode link m (s.node i) i f.content.length f.text
  offset : load32 m (s.fileHeader i + FileHeader.offset) =
    s.header + offsetFrom (4 + files.length * 76) files i
  length : load32 m (s.fileHeader i + FileHeader.length) = f.content.length
  content : Holds m (s.header + offsetFrom (4 + files.length * 76) files i)
    f.content

/-- A file as it was packed. -/
structure PackedFile (files : List File) (s : State) (m : Memory) (i : ℕ)
    (f : File) : Prop where
  name : (Str.ptr (s.fileHeader i + FileHeader.name)).Reads m f.text
  offset : load32 m (s.fileHeader i + FileHeader.offset) =
    offsetFrom (4 + files.length * 76) files i
  length : load32 m (s.fileHeader i + FileHeader.length) = f.content.length
  content : Holds m (s.header + offsetFrom (4 + files.length * 76) files i)
    f.content

theorem reads_headerBytes {m : Memory} {a offset length : ℕ}
    {name : List UInt8} (h : Holds m a (headerBytes name offset length))
    (hlen : name.length ≤ 63) (hname : 0 ∉ name) :
    (Str.ptr (a + FileHeader.name)).Reads m name ∧
      load32 m (a + FileHeader.offset) = uint32 offset ∧
      load32 m (a + FileHeader.length) = uint32 length := by
  rw [headerBytes, holds_append, holds_append, holds_append] at h
  obtain ⟨⟨⟨-, hat⟩, hoffset⟩, hlength⟩ := h
  simp only [List.length_append, length_wordBytes, length_pack64s] at hoffset hlength
  refine ⟨⟨fun i hi => ?_, hname⟩, hoffset.load32, hlength.load32⟩
  have hlt : i < (pack64s name).length := by
    rw [length_pack64s]
    omega
  have hbyte := hat i hlt
  rw [length_wordBytes] at hbyte
  change m.byte (a + 4 + i) = _
  rw [hbyte]
  simp only [pack64s, List.take_of_length_le (show name.length ≤ 64 by omega)]
  rcases Nat.lt_or_eq_of_le hi with hin | rfl
  · rw [List.getElem_append_left hin, List.getD_eq_getElem _ _ hin]
  · rw [List.getElem_append_right le_rfl, List.getElem_replicate,
      List.getD_eq_default _ _ le_rfl]

abbrev imageSize (files : List File) : ℕ :=
  offsetFrom (4 + files.length * 76) files files.length

/-- What the loop has done before the file `i`. -/
structure Looping (link : Link) (files : List File) (s : State) (i : ℕ)
    (m : Memory) : Prop where
  count : load32 m s.header = files.length
  root : Directory link m s.root
  dev : Directory link m s.dev
  mounted : ∀ j f, files[j]? = some f → j < i → MountedFile link files s m j f
  packed : ∀ j f, files[j]? = some f → i ≤ j → PackedFile files s m j f

section Loop

variable {link : Link} {files : List File} {s : State} {m m' : Memory}
variable {i j fuel : ℕ} {f : File}

def roundWrites (s : State) (i : ℕ) : Set ℕ :=
  Set.Ico (s.fileHeader i + FileHeader.offset)
      (s.fileHeader i + FileHeader.offset + 4) ∪
    Set.Ico (s.node i) (s.node i + VfsNode.size)

/-- What a round changes in the image lies in the header. -/
theorem offset_subset :
    Set.Ico (s.fileHeader i + FileHeader.offset)
        (s.fileHeader i + FileHeader.offset + 4) ⊆
      Set.Ico (s.fileHeader i) (s.fileHeader i + 76) := by
  have hoffset : FileHeader.offset = 68 := rfl
  exact Set.Ico_subset_Ico (by omega) (by omega)

theorem Layout.image_subset (hlayout : Layout (imageSize files) files.length s)
    (hi : i < files.length) {a b : ℕ} (ha : s.header ≤ a)
    (hb : b ≤ s.header + imageSize files)
    (hapart : b ≤ s.fileHeader i + 68 ∨ s.fileHeader i + 72 ≤ a) :
    Set.Ico a b ⊆ (roundWrites s i)ᶜ := by
  rintro x ⟨hlo, hhi⟩ (hoffset | hblock)
  · have hge := hoffset.1
    have hlt := hoffset.2
    rw [FileHeader.offset] at hge hlt
    omega
  · exact Set.disjoint_left.mp hlayout.nodes_apart
      (hlayout.node_subset_nodes hi hblock) (Or.inl ⟨by omega, by omega⟩)

theorem Layout.node_subset (hlayout : Layout (imageSize files) files.length s)
    (hi : i < files.length) (hj : j < files.length) (hne : j ≠ i) :
    Set.Ico (s.node j) (s.node j + VfsNode.size) ⊆ (roundWrites s i)ᶜ := by
  rintro x hx (hoffset | hblock)
  · exact Set.disjoint_left.mp hlayout.nodes_apart
      (hlayout.node_subset_nodes hj hx)
      (Or.inl (hlayout.fileHeader_subset hi (offset_subset hoffset)))
  · obtain ⟨hnode, -⟩ := hlayout.node hi
    obtain ⟨hnode', -⟩ := hlayout.node hj
    rw [hnode, VfsNode.size, Set.mem_Ico] at hblock
    rw [hnode', VfsNode.size, Set.mem_Ico] at hx
    rcases Nat.lt_or_gt_of_ne hne with hlt | hlt <;> omega

theorem Layout.directory_subset
    (hlayout : Layout (imageSize files) files.length s) (hi : i < files.length) :
    Set.Ico s.root (s.root + VfsNode.size) ∪
      Set.Ico s.dev (s.dev + VfsNode.size) ⊆ (roundWrites s i)ᶜ := by
  rintro x hx (hoffset | hblock)
  · exact Set.disjoint_left.mp hlayout.image_apart hx
      (hlayout.fileHeader_subset hi (offset_subset hoffset))
  · exact Set.disjoint_left.mp hlayout.nodes_apart
      (hlayout.node_subset_nodes hi hblock) (Or.inr hx)

/-- A round leaves the files apart from its own alone. -/
theorem Layout.header_subset (hlayout : Layout (imageSize files) files.length s)
    (hi : i < files.length) (hj : j < files.length) (hne : j ≠ i) :
    Set.Ico (s.fileHeader j) (s.fileHeader j + 76) ⊆ (roundWrites s i)ᶜ := by
  obtain ⟨hheader, hle⟩ := hlayout.fileHeader hi
  obtain ⟨hheader', hle'⟩ := hlayout.fileHeader hj
  have himage := hlayout.headers_le
  apply hlayout.image_subset hi
  · omega
  · omega
  · rcases Nat.lt_or_gt_of_ne hne with hlt | hlt <;> omega

theorem Layout.content_subset (hlayout : Layout (imageSize files) files.length s)
    (hi : i < files.length) (hj : files[j]? = some f) :
    Set.Ico (s.header + offsetFrom (4 + files.length * 76) files j)
        (s.header + offsetFrom (4 + files.length * 76) files j +
          f.content.length) ⊆ (roundWrites s i)ᶜ := by
  obtain ⟨hheader, hle⟩ := hlayout.fileHeader hi
  obtain ⟨hlo, hhi⟩ := @offsetFrom_bounds f files (4 + files.length * 76) j hj
  rw [← imageSize] at hhi
  apply hlayout.image_subset hi
  · omega
  · omega
  · omega

theorem MountedFile.congr {S : Set ℕ} (h : MountedFile link files s m j f)
    (hsame : SameOn S m m')
    (hnode : Set.Ico (s.node j) (s.node j + VfsNode.size) ⊆ S)
    (hheader : Set.Ico (s.fileHeader j) (s.fileHeader j + 76) ⊆ S)
    (hcontent : Set.Ico (s.header + offsetFrom (4 + files.length * 76) files j)
        (s.header + offsetFrom (4 + files.length * 76) files j +
          f.content.length) ⊆ S) :
    MountedFile link files s m' j f := by
  have hlen := length_name f
  have hoffsets : FileHeader.offset = 68 ∧ FileHeader.length = 72 := ⟨rfl, rfl⟩
  refine ⟨h.node.congr ?_ (hsame.mono hnode), ?_, ?_, h.content.congr hsame hcontent⟩
  · rw [length_text]
    omega
  · rw [hsame.load32, h.offset]
    exact (Set.Ico_subset_Ico (by omega) (by omega)).trans hheader
  · rw [hsame.load32, h.length]
    exact (Set.Ico_subset_Ico (by omega) (by omega)).trans hheader

theorem PackedFile.congr {S : Set ℕ} (h : PackedFile files s m j f)
    (hsame : SameOn S m m')
    (hheader : Set.Ico (s.fileHeader j) (s.fileHeader j + 76) ⊆ S)
    (hcontent : Set.Ico (s.header + offsetFrom (4 + files.length * 76) files j)
        (s.header + offsetFrom (4 + files.length * 76) files j +
          f.content.length) ⊆ S) :
    PackedFile files s m' j f := by
  have hlen := length_name f
  have hoffsets : FileHeader.name = 4 ∧ FileHeader.offset = 68 ∧
      FileHeader.length = 72 := ⟨rfl, rfl, rfl⟩
  refine ⟨h.name.congr hsame ?_, ?_, ?_, h.content.congr hsame hcontent⟩
  · rw [length_text]
    exact (Set.Ico_subset_Ico (by omega) (by omega)).trans hheader
  · rw [hsame.load32, h.offset]
    exact (Set.Ico_subset_Ico (by omega) (by omega)).trans hheader
  · rw [hsame.load32, h.length]
    exact (Set.Ico_subset_Ico (by omega) (by omega)).trans hheader

theorem Looping.step (h : Looping link files s i m)
    (hlayout : Layout (imageSize files) files.length s)
    (hf : files[i]? = some f) (hfuel : 64 ≤ fuel) :
    ∃ m', mountFile fuel link s i m = some m' ∧
      Looping link files s (i + 1) m' ∧ SameOn (roundWrites s i)ᶜ m m' := by
  have hi := (List.getElem?_eq_some_iff.mp hf).1
  have hcount := hlayout.count_lt
  have himage := hlayout.image_lt
  have hlen := length_name f
  obtain ⟨hname, hoffset, hlength, hcontent⟩ := h.packed i f hf le_rfl
  obtain ⟨hheader, hheader_le⟩ := hlayout.fileHeader hi
  obtain ⟨hlo, hhi⟩ := @offsetFrom_bounds f files (4 + files.length * 76) i hf
  have hapart : Disjoint
      (Set.Ico (s.fileHeader i) (s.fileHeader i + FileHeader.size))
      (Set.Ico (s.node i) (s.node i + VfsNode.size)) :=
    (hlayout.nodes_apart.mono (hlayout.node_subset_nodes hi)
      ((hlayout.fileHeader_subset hi).trans Set.subset_union_left)).symm
  rw [← length_text] at hlen
  rw [← imageSize] at hhi
  obtain ⟨m', hmount, hnode, hoffset', hsame⟩ := @mountFile_spec link m i fuel
    f.text s hname (by omega) (by omega) (by omega) hapart
  rw [hlength] at hnode
  rw [hoffset, Nat.add_comm _ s.header, uint32_eq_of_lt (by omega)] at hoffset'
  refine ⟨m', hmount, ⟨?_, ?_, ?_, ?_, ?_⟩, hsame⟩
  · rw [hsame.load32, h.count]
    exact hlayout.image_subset hi le_rfl (by omega) (by omega)
  · exact h.root.congr
      (hsame.mono (Set.subset_union_left.trans (hlayout.directory_subset hi)))
  · exact h.dev.congr
      (hsame.mono (Set.subset_union_right.trans (hlayout.directory_subset hi)))
  · intro j g hj hlt
    rcases Nat.lt_or_eq_of_le (Nat.le_of_lt_succ hlt) with hlt' | rfl
    · have hj' := (List.getElem?_eq_some_iff.mp hj).1
      exact (h.mounted j g hj hlt').congr hsame
        (hlayout.node_subset hi hj' hlt'.ne)
        (hlayout.header_subset hi hj' hlt'.ne) (hlayout.content_subset hi hj)
    · obtain rfl : f = g := Option.some.inj (hf.symm.trans hj)
      refine ⟨hnode, hoffset', ?_, hcontent.congr hsame
        (hlayout.content_subset hi hj)⟩
      rw [hsame.load32, hlength]
      have hlength_eq : FileHeader.length = 72 := rfl
      apply hlayout.image_subset hi <;> omega
  · intro j g hj hle
    have hj' := (List.getElem?_eq_some_iff.mp hj).1
    have hne : j ≠ i := by omega
    exact (h.packed j g hj (by omega)).congr hsame
      (hlayout.header_subset hi hj' hne) (hlayout.content_subset hi hj)

/-- What the rounds may change. -/
def loopWrites (files : List File) (s : State) : Set ℕ :=
  Set.Ico s.header (s.header + imageSize files) ∪
    Set.Ico s.rootNodes (s.rootNodes + VfsNode.size * files.length)

theorem Layout.roundWrites_subset
    (hlayout : Layout (imageSize files) files.length s)
    (hi : i < files.length) : roundWrites s i ⊆ loopWrites files s :=
  Set.union_subset_union (offset_subset.trans (hlayout.fileHeader_subset hi))
    (hlayout.node_subset_nodes hi)

theorem Looping.run (h : Looping link files s i m)
    (hlayout : Layout (imageSize files) files.length s) (hfuel : 64 ≤ fuel)
    (hi : i ≤ files.length) {rounds : ℕ} (hrounds : files.length - i < rounds) :
    ∃ m', mountFiles fuel link s rounds i m = some m' ∧
      Looping link files s files.length m' ∧
      SameOn (loopWrites files s)ᶜ m m' := by
  induction rounds generalizing i m with
  | zero => exact absurd hrounds (Nat.not_lt_zero _)
  | succ rounds ih =>
      rw [mountFiles, h.count]
      split_ifs with hlt
      · obtain ⟨m₁, hmount, hstep, hsame⟩ :=
          h.step hlayout (List.getElem?_eq_getElem hlt) hfuel
        obtain ⟨m', hloop, hend, hsame'⟩ := ih hstep hlt (by omega)
        rw [hmount, Option.bind_some]
        refine ⟨m', hloop, hend, (hsame.mono ?_).trans hsame'⟩
        exact Set.compl_subset_compl.mpr (hlayout.roundWrites_subset hlt)
      · obtain rfl : i = files.length := by omega
        exact ⟨m, rfl, h, SameOn.refl _ m⟩

end Loop

/-! ## Mounting -/

/-- `kmalloc` serves the sizes, one after the other: each block is fresh, and
what is in use stays as it is.  Between the calls the caller may write to what
is in use. -/
def Kmalloc.Serves (kmalloc : Kmalloc) : List ℕ → (used : Set ℕ) → Memory → Prop
  | [], _, _ => True
  | size :: sizes, used, m =>
      0 < (kmalloc size m).1 ∧ (kmalloc size m).1 + size ≤ 2 ^ 32 ∧
        Disjoint (Set.Ico (kmalloc size m).1 ((kmalloc size m).1 + size)) used ∧
        SameOn used m (kmalloc size m).2 ∧
        ∀ m', SameOn
            (used ∪ Set.Ico (kmalloc size m).1 ((kmalloc size m).1 + size))ᶜ
            (kmalloc size m).2 m' →
          kmalloc.Serves sizes
            (used ∪ Set.Ico (kmalloc size m).1 ((kmalloc size m).1 + size)) m'

/-- `kmalloc` serves the sizes, and then `P` holds, whatever the caller has
written to what is in use. -/
def Kmalloc.ServesTo (kmalloc : Kmalloc) (P : Set ℕ → Memory → Prop) :
    List ℕ → (used : Set ℕ) → Memory → Prop
  | [], used, m => P used m
  | size :: sizes, used, m =>
      0 < (kmalloc size m).1 ∧ (kmalloc size m).1 + size ≤ 2 ^ 32 ∧
        Disjoint (Set.Ico (kmalloc size m).1 ((kmalloc size m).1 + size)) used ∧
        SameOn used m (kmalloc size m).2 ∧
        ∀ m', SameOn
            (used ∪ Set.Ico (kmalloc size m).1 ((kmalloc size m).1 + size))ᶜ
            (kmalloc size m).2 m' →
          kmalloc.ServesTo P sizes
            (used ∪ Set.Ico (kmalloc size m).1 ((kmalloc size m).1 + size)) m'

section Serving

variable {kmalloc : Kmalloc} {P Q : Set ℕ → Memory → Prop} {sizes : List ℕ}
variable {used : Set ℕ} {m : Memory}

theorem Kmalloc.Serves.servesTo (h : kmalloc.Serves sizes used m) :
    kmalloc.ServesTo (fun _ _ => True) sizes used m := by
  induction sizes generalizing used m with
  | nil => trivial
  | cons size sizes ih =>
      obtain ⟨hpos, hle, hapart, hsame, hnext⟩ := h
      exact ⟨hpos, hle, hapart, hsame, fun m' hm' => ih (hnext m' hm')⟩

theorem Kmalloc.ServesTo.serves (h : kmalloc.ServesTo P sizes used m) :
    kmalloc.Serves sizes used m := by
  induction sizes generalizing used m with
  | nil => trivial
  | cons size sizes ih =>
      obtain ⟨hpos, hle, hapart, hsame, hnext⟩ := h
      exact ⟨hpos, hle, hapart, hsame, fun m' hm' => ih (hnext m' hm')⟩

end Serving

/-- An image that the packer has made is loaded at `location`, and `kmalloc`
serves what `initialise_initrd` asks for. -/
structure Ready (link : Link) (kmalloc : Kmalloc) (files : List File)
    (image : List UInt8) (location : ℕ) (used : Set ℕ) (m : Memory) : Prop where
  packed : mkinitrd files = some image
  loaded : Holds m location image
  room : location + image.length < 2 ^ 32
  nodes : VfsNode.size * files.length < 2 ^ 32
  serves : kmalloc.Serves
    [VfsNode.size, VfsNode.size, VfsNode.size * files.length] used m
  image_used : Set.Ico location (location + image.length) ⊆ used
  dirent_used : Set.Ico link.dirent (link.dirent + Dirent.size) ⊆ used
  apart : Disjoint (Set.Ico location (location + image.length))
    (Set.Ico link.dirent (link.dirent + Dirent.size))

structure Mounted (link : Link) (files : List File) (s : State) : Prop where
  layout : Layout (imageSize files) files.length s
  dirent : Disjoint (s.region (imageSize files) files.length)
    (Set.Ico link.dirent (link.dirent + Dirent.size))
  count : s.nrootNodes = files.length
  root : Directory link s.mem s.root
  dev : Directory link s.mem s.dev
  file : ∀ i f, files[i]? = some f → MountedFile link files s s.mem i f
  name : ∀ f ∈ files, f.Packable

section Mount

variable {link : Link} {files : List File} {image : List UInt8} {m : Memory}
variable {used : Set ℕ} {location fuel : ℕ} {kmalloc : Kmalloc}

theorem File.Packable.text {f : File} (h : f.Packable) : 0 ∉ f.text := by
  intro hzero
  obtain ⟨c, hc, hbyte⟩ := List.mem_map.mp hzero
  rw [asciiByte_eq_zero_iff (h.name c hc)] at hbyte
  exact h.path (hbyte ▸ mem_path_of_mem_name hc)

theorem packed_of_holds {s : State}
    (hlayout : Layout (imageSize files) files.length s)
    (himage : mkinitrd files = some image) (hm : Holds m s.header image)
    {i : ℕ} {f : File} (hf : files[i]? = some f) : PackedFile files s m i f := by
  obtain ⟨-, hcount, headers, hheaders, -⟩ := mkinitrd_eq_some_iff.mp himage
  obtain ⟨-, hpack, hget⟩ := packHeaders_eq_some hheaders
  obtain ⟨hoffset, hlength, -⟩ := hget i f hf
  obtain ⟨hlt, rfl⟩ := List.getElem?_eq_some_iff.mp hf
  obtain ⟨hbytes, hcontent⟩ := (holds_image himage hm).2 i _ hf
  obtain ⟨hheader, -⟩ := hlayout.fileHeader hlt
  rw [← hheader] at hbytes
  obtain ⟨hname, hoffset', hlength'⟩ := reads_headerBytes hbytes
    (by rw [length_text]; exact length_name _)
    (hpack _ (List.getElem_mem hlt)).text
  rw [uint32_eq_of_lt hoffset] at hoffset'
  rw [uint32_eq_of_lt hlength] at hlength'
  exact ⟨hname, hoffset', hlength', hcontent⟩

theorem load32_image (himage : mkinitrd files = some image)
    (hm : Holds m location image) : load32 m location = files.length := by
  obtain ⟨-, hcount, -⟩ := mkinitrd_eq_some_iff.mp himage
  rw [(holds_image himage hm).1.load32, uint32_eq_of_lt hcount]

/-- A directory gets a fresh node, which is filled in. -/
theorem Kmalloc.ServesTo.directory {P : Set ℕ → Memory → Prop} {sizes : List ℕ}
    (h : kmalloc.ServesTo P (VfsNode.size :: sizes) used m) (link : Link)
    (name : List UInt8) (hname : 0 ∉ name) (hlen : name.length < 64)
    (hfuel : 64 ≤ fuel) :
    ∃ dir m₁ m', kmalloc VfsNode.size m = (dir, m₁) ∧
      initDirectory fuel link dir name m₁ = some m' ∧ 0 < dir ∧
      Disjoint (Set.Ico dir (dir + VfsNode.size)) used ∧
      SameOn used m m' ∧ Directory link m' dir ∧
      kmalloc.ServesTo P sizes (used ∪ Set.Ico dir (dir + VfsNode.size)) m' := by
  rcases hdir : kmalloc VfsNode.size m with ⟨dir, m₁⟩
  simp only [Kmalloc.ServesTo, hdir] at h
  obtain ⟨hpos, -, hapart, hsame, hnext⟩ := h
  obtain ⟨m', hinit, hdirectory, hsame'⟩ := @initDirectory_spec link m₁ dir fuel
    name hname (hlen.trans (by decide)) (hlen.trans_le hfuel)
  exact ⟨dir, m₁, m', rfl, hinit, hpos, hapart,
    hsame.trans (hsame'.mono (Set.subset_compl_iff_disjoint_left.mpr hapart)),
    hdirectory, hnext m' (hsame'.mono
      (Set.compl_subset_compl.mpr Set.subset_union_right))⟩

/-- The nodes of a ramdisk have been served one after the other, while `used`
was in use. -/
structure Placed (files : List File) (used : Set ℕ) (s : State) : Prop where
  fileHeaders : s.fileHeaders = uint32 (s.header + 4)
  image_lt : s.header + imageSize files < 2 ^ 32
  image : Set.Ico s.header (s.header + imageSize files) ⊆ used
  root_pos : 0 < s.root
  root : Disjoint (Set.Ico s.root (s.root + VfsNode.size)) used
  dev_pos : 0 < s.dev
  dev : Disjoint (Set.Ico s.dev (s.dev + VfsNode.size))
    (used ∪ Set.Ico s.root (s.root + VfsNode.size))
  nodes_pos : 0 < s.rootNodes
  nodes_le : s.rootNodes + VfsNode.size * files.length ≤ 2 ^ 32
  nodes : Disjoint
    (Set.Ico s.rootNodes (s.rootNodes + VfsNode.size * files.length))
    (used ∪ Set.Ico s.root (s.root + VfsNode.size) ∪
      Set.Ico s.dev (s.dev + VfsNode.size))

theorem headers_le : 4 + files.length * 76 ≤ imageSize files :=
  Nat.le_add_right _ _

theorem Placed.layout {s : State} (h : Placed files used s) :
    Layout (imageSize files) files.length s where
  fileHeaders := by
    have hlt := h.image_lt
    have hle := @headers_le files
    rw [h.fileHeaders, uint32_eq_of_lt (by omega)]
  image_lt := h.image_lt
  headers_le := headers_le
  root_pos := h.root_pos
  dev_pos := h.dev_pos
  nodes_pos := h.nodes_pos
  nodes_le := h.nodes_le
  root_dev := h.dev.mono_right Set.subset_union_right
  nodes_apart := by
    apply h.nodes.mono_right
    rw [Set.union_assoc]
    exact Set.union_subset_union_left _ h.image
  image_apart := Set.disjoint_union_left.mpr ⟨h.root.mono_right h.image,
    h.dev.mono_right (h.image.trans Set.subset_union_left)⟩

/-- What was in use apart from the image lies apart from the ramdisk. -/
theorem Placed.region_disjoint {s : State} (h : Placed files used s) {t : Set ℕ}
    (ht : t ⊆ used)
    (hapart : Disjoint (Set.Ico s.header (s.header + imageSize files)) t) :
    Disjoint (s.region (imageSize files) files.length) t := by
  rw [State.region, Set.disjoint_union_left, Set.disjoint_union_left,
    Set.disjoint_union_left]
  exact ⟨hapart, h.root.mono_right ht,
    h.dev.mono_right (ht.trans Set.subset_union_left),
    h.nodes.mono_right
      (ht.trans (Set.subset_union_left.trans Set.subset_union_left))⟩

theorem Placed.region_subset {s : State} (h : Placed files used s) :
    s.region (imageSize files) files.length ⊆
      used ∪ Set.Ico s.root (s.root + VfsNode.size) ∪
        Set.Ico s.dev (s.dev + VfsNode.size) ∪
        Set.Ico s.rootNodes (s.rootNodes + VfsNode.size * files.length) := by
  rintro a (ha | ha | ha | ha)
  · exact Or.inl (Or.inl (Or.inl (h.image ha)))
  · exact Or.inl (Or.inl (Or.inr ha))
  · exact Or.inl (Or.inr ha)
  · exact Or.inr ha

/-- The loop mounts the files of an image that lies in memory. -/
theorem Placed.mountFiles {s : State} (h : Placed files used s)
    (himage : mkinitrd files = some image) (hm : Holds s.mem s.header image)
    (hroot : Directory link s.mem s.root) (hdev : Directory link s.mem s.dev)
    (hcount : s.nrootNodes = files.length)
    (hdirent : Disjoint (s.region (imageSize files) files.length)
      (Set.Ico link.dirent (link.dirent + Dirent.size)))
    (hfuel : 64 ≤ fuel) (hrounds : files.length < fuel) :
    ∃ m', mountFiles fuel link s fuel 0 s.mem = some m' ∧
      Mounted link files { s with mem := m' } ∧
      SameOn (loopWrites files s)ᶜ s.mem m' := by
  have hlayout := h.layout
  have hstart : Looping link files s 0 s.mem :=
    ⟨load32_image himage hm, hroot, hdev,
      fun j _ _ hj => absurd hj (Nat.not_lt_zero j),
      fun _ _ hf _ => packed_of_holds hlayout himage hm hf⟩
  obtain ⟨m', hloop, hend, hsame⟩ := hstart.run hlayout hfuel (Nat.zero_le _)
    (show files.length - 0 < fuel from hrounds)
  obtain ⟨-, -, headers, hheaders, -⟩ := mkinitrd_eq_some_iff.mp himage
  refine ⟨m', hloop, ⟨⟨hlayout.1, hlayout.2, hlayout.3, hlayout.4, hlayout.5,
    hlayout.6, hlayout.7, hlayout.8, hlayout.9, hlayout.10⟩, hdirent, hcount,
    hend.root, hend.dev, fun i f hf => ?_, (packHeaders_eq_some hheaders).2.1⟩,
    hsame⟩
  have hlt := (List.getElem?_eq_some_iff.mp hf).1
  obtain ⟨hnode, hoffset, hlength, hcontent⟩ := hend.mounted i f hf hlt
  exact ⟨hnode, hoffset, hlength, hcontent⟩

/-- `initialise_initrd` mounts a loaded image; of what was in use, it writes
to the image only. -/
theorem initialiseInitrd_servesTo {P : Set ℕ → Memory → Prop} (hfuel : 64 ≤ fuel)
    (hrounds : files.length < fuel)
    (h : Ready link kmalloc files image location used m)
    (hserves : kmalloc.ServesTo P
      [VfsNode.size, VfsNode.size, VfsNode.size * files.length] used m) :
    ∃ s used', initialiseInitrd fuel link kmalloc location m = some (s.root, s) ∧
      s.header = location ∧ Mounted link files s ∧ P used' s.mem ∧
      used ⊆ used' ∧ s.region (imageSize files) files.length ⊆ used' ∧
      SameOn (used \ Set.Ico location (location + image.length)) m s.mem := by
  obtain ⟨himage, hm, hlt, hnodes, -, hused, hdirent, hapart⟩ := h
  have hlen := length_image himage
  rw [← imageSize] at hlen
  rw [hlen] at hlt hused hapart ⊢
  obtain ⟨root, m₁, m₂, hkmalloc₁, hinit₁, hpos₁, hapart₁, hsame₁, hroot,
    hserves₁⟩ := hserves.directory link initrdName (by decide) (by decide) hfuel
  obtain ⟨dev, m₃, m₄, hkmalloc₂, hinit₂, hpos₂, hapart₂, hsame₂, hdev,
    hserves₂⟩ := hserves₁.directory link devName (by decide) (by decide) hfuel
  have hsame₄ : SameOn used m m₄ :=
    hsame₁.trans (hsame₂.mono Set.subset_union_left)
  rcases hnode : kmalloc (VfsNode.size * files.length) m₄ with ⟨nodes, m₅⟩
  simp only [Kmalloc.ServesTo, hnode] at hserves₂
  obtain ⟨hpos₃, hle₃, hapart₃, hsame₃, hnext⟩ := hserves₂
  have hsame₅ : SameOn used m m₅ := hsame₄.trans
    (hsame₃.mono (Set.subset_union_left.trans Set.subset_union_left))
  have himage₅ : Holds m₅ location image := hm.congr hsame₅ (hlen ▸ hused)
  have hcount₅ := load32_image himage himage₅
  have hcount₄ := load32_image himage (hm.congr hsame₄ (hlen ▸ hused))
  let s : State :=
    { mem := m₅, header := location, fileHeaders := uint32 (location + 4)
      root := root, dev := dev, rootNodes := nodes
      nrootNodes := load32 m₅ location, loads := [] }
  have hplaced : Placed files used s := ⟨rfl, hlt, hused, hpos₁, hapart₁, hpos₂,
    hapart₂, hpos₃, hle₃, hapart₃⟩
  obtain ⟨m₆, hloop, hmounted, hsame₆⟩ := hplaced.mountFiles himage himage₅
    ((hroot.congr (hsame₂.mono Set.subset_union_right)).congr
      (hsame₃.mono (Set.subset_union_right.trans Set.subset_union_left)))
    (hdev.congr (hsame₃.mono Set.subset_union_right)) hcount₅
    (hplaced.region_disjoint hdirent hapart) hfuel hrounds
  have hserves₆ := hnext m₆ (hsame₆.mono (Set.compl_subset_compl.mpr
    (Set.union_subset_union_left _
      (hused.trans (Set.subset_union_left.trans Set.subset_union_left)))))
  refine ⟨{ s with mem := m₆ }, _, ?_, rfl, hmounted, hserves₆, ?_,
    hplaced.region_subset, ?_⟩
  · rw [initialiseInitrd]
    simp only [Option.bind_eq_bind, hkmalloc₁, hinit₁, Option.bind_some,
      hkmalloc₂, hinit₂, hcount₄, uint32_eq_of_lt hnodes, hnode]
    change (mountFiles fuel link s fuel 0 m₅).bind _ = _
    rw [hloop, Option.bind_some]
  · exact Set.subset_union_left.trans
      (Set.subset_union_left.trans Set.subset_union_left)
  · refine (hsame₅.mono Set.sdiff_subset).trans (hsame₆.mono ?_)
    rintro a ⟨ha, hout⟩ (hin | hin)
    · exact hout hin
    · exact Set.disjoint_left.mp hapart₃ hin (Or.inl (Or.inl ha))

/-- `initialise_initrd` mounts a loaded image. -/
theorem initialiseInitrd_mounted (hfuel : 64 ≤ fuel)
    (hrounds : files.length < fuel)
    (h : Ready link kmalloc files image location used m) :
    ∃ s, initialiseInitrd fuel link kmalloc location m = some (s.root, s) ∧
      s.header = location ∧ Mounted link files s := by
  obtain ⟨s, -, hmount, hheader, hmounted, -⟩ :=
    initialiseInitrd_servesTo hfuel hrounds h h.serves.servesTo
  exact ⟨s, hmount, hheader, hmounted⟩

end Mount

/-! ## Images that fit -/

/-- An allocator that gives out the memory from the word at `0x800` on. -/
def bump : Kmalloc := fun size m =>
  (load32 m 0x800, m.store32 0x800 (load32 m 0x800 + size))

/-- An image at `0x2000`, and free memory behind it. -/
def loadedAt (image : List UInt8) : Memory :=
  Memory.store32 ⟨fun a => image.getD (a - 0x2000) 0, []⟩ 0x800
    (0x2000 + image.length)

/-- A directory entry at `0x1000`. -/
def lowLink : Link where
  dirent := 0x1000
  initrdRead := 0x400
  initrdReaddir := 0x410
  initrdFinddir := 0x420
  dirent_pos := by omega
  read_pos := by omega
  read_lt := by omega
  readdir_pos := by omega
  readdir_lt := by omega
  finddir_pos := by omega
  finddir_lt := by omega

section Fitting

variable {files : List File} {image : List UInt8} {m : Memory}

theorem bump_serves {sizes : List ℕ} {used : Set ℕ}
    (hused : used ⊆ Set.Ico 0x804 (load32 m 0x800))
    (hlow : 0x804 ≤ load32 m 0x800)
    (hfits : load32 m 0x800 + sizes.sum < 2 ^ 32) :
    bump.Serves sizes used m := by
  induction sizes generalizing used m with
  | nil => trivial
  | cons size sizes ih =>
      rw [List.sum_cons] at hfits
      refine ⟨show 0 < load32 m 0x800 by omega,
        show load32 m 0x800 + size ≤ 2 ^ 32 by omega, ?_, ?_, fun m' hsame => ?_⟩
      · apply Set.disjoint_left.mpr
        intro a ha hin
        have hge : load32 m 0x800 ≤ a := ha.1
        have hlt := (hused hin).2
        omega
      · apply (SameOn.refl _ _).store32
        apply Set.disjoint_left.mpr
        intro a ha hin
        have hge := (hused ha).1
        have hlt := hin.2
        omega
      · have hblock : used ∪ Set.Ico (load32 m 0x800) (load32 m 0x800 + size) ⊆
            Set.Ico 0x804 (load32 m 0x800 + size) := by
          apply Set.union_subset
          · exact hused.trans (Set.Ico_subset_Ico_right (by omega))
          · exact Set.Ico_subset_Ico_left hlow
        have hnext : load32 m' 0x800 = load32 m 0x800 + size := by
          rw [hsame.load32]
          · change load32 (m.store32 0x800 (load32 m 0x800 + size)) 0x800 = _
            rw [load32_store32, uint32_eq_of_lt (by omega)]
          · intro a ha hin
            have hlt := ha.2
            have hge := (hblock hin).1
            omega
        apply ih
        · rw [hnext]
          exact hblock
        · omega
        · omega

theorem loadedAt_holds (image : List UInt8) :
    Holds (loadedAt image) 0x2000 image := by
  intro i hi
  rw [loadedAt, byte_store32_of_disjoint (by omega)]
  dsimp only
  rw [Nat.add_sub_cancel_left, List.getD_eq_getElem _ _ hi]

/-- Every image of files that the packer takes and that fit in memory can be
mounted. -/
theorem exists_ready (hempty : files ≠ []) (hpack : ∀ f ∈ files, f.Packable)
    (hfits : 0x2000 + imageSize files + VfsNode.size * (files.length + 2) <
      2 ^ 32) :
    ∃ image, Ready lowLink bump files image 0x2000
      (Set.Ico 0x1000 (0x2000 + image.length)) (loadedAt image) := by
  have hsize : VfsNode.size = 184 := rfl
  rw [hsize] at hfits
  obtain ⟨headers, hheaders⟩ := exists_packHeaders hpack
    (show imageSize files < 2 ^ 32 by omega)
  have himage := mkinitrd_eq_some_iff.mpr
    ⟨hempty, by omega, headers, hheaders, rfl⟩
  have hlen := length_image himage
  rw [← imageSize] at hlen
  set image := wordBytes files.length ++ headers.flatten ++
    (files.map File.content).flatten
  have hword : load32 (loadedAt image) 0x800 = 0x2000 + image.length := by
    rw [loadedAt, load32_store32, uint32_eq_of_lt (by omega)]
  refine ⟨image, himage, loadedAt_holds image, by omega, by rw [hsize]; omega,
    ?_, ?_, ?_, ?_⟩
  · rw [hsize]
    apply bump_serves
    · rw [hword]
      exact Set.Ico_subset_Ico_left (by omega)
    · omega
    · rw [hword]
      simp only [List.sum_cons, List.sum_nil]
      omega
  · exact Set.Ico_subset_Ico_left (by omega)
  · exact Set.Ico_subset_Ico (by decide) (by
      rw [show lowLink.dirent + Dirent.size = 0x1084 from rfl]
      omega)
  · rw [Set.Ico_disjoint_Ico, show lowLink.dirent + Dirent.size = 0x1084 from rfl,
      show lowLink.dirent = 0x1000 from rfl]
    omega

end Fitting

def smallFile : File where
  path := ['a']
  content := [7, 8]

theorem smallFile_packable : smallFile.Packable := by
  have hname : smallFile.name = ['a'] := by decide
  constructor
  · decide
  · rw [hname, List.forall_mem_singleton]
    decide

theorem exists_ready_smallFile :
    ∃ image, Ready lowLink bump [smallFile] image 0x2000
      (Set.Ico 0x1000 (0x2000 + image.length)) (loadedAt image) := by
  apply exists_ready (List.cons_ne_nil _ _)
  · rw [List.forall_mem_singleton]
    exact smallFile_packable
  · decide

def emptyFile : File where
  path := ['b']
  content := []

def twoFiles : List File := [smallFile, emptyFile]

theorem emptyFile_packable : emptyFile.Packable := by
  have hname : emptyFile.name = ['b'] := by decide
  constructor
  · decide
  · rw [hname, List.forall_mem_singleton]
    decide

theorem exists_ready_twoFiles :
    ∃ image, Ready lowLink bump twoFiles image 0x2000
      (Set.Ico 0x1000 (0x2000 + image.length)) (loadedAt image) := by
  apply exists_ready (List.cons_ne_nil _ _)
  · intro f hf
    rcases List.mem_pair.mp hf with rfl | rfl
    · exact smallFile_packable
    · exact emptyFile_packable
  · decide

end BabOs.Initrd
