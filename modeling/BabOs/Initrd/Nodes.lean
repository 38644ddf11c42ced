import BabOs.Initrd.Image
import BabOs.Initrd.Model

/-!
# Nodes

What the loop of `initialise_initrd` makes of one file, and what a directory
node is made of.
-/

namespace BabOs.Initrd

open Memory

/-! ## Fields -/

section Fields

variable {m : Memory} {p o v : ℕ} {fields : List (ℕ × ℕ)} {name : List UInt8}

/-- The fields lie in the node, after its name. -/
def InNode (fields : List (ℕ × ℕ)) : Prop :=
  ∀ field ∈ fields, 128 ≤ field.1 ∧ field.1 + 4 ≤ VfsNode.size

theorem storeFields_cons (field : ℕ × ℕ) :
    storeFields p (field :: fields) m =
      storeFields p fields (m.store32 (p + field.1) field.2) :=
  rfl

theorem load32_storeFields_of_apart
    (h : ∀ field ∈ fields, field.1 + 4 ≤ o ∨ o + 4 ≤ field.1) :
    load32 (storeFields p fields m) (p + o) = load32 m (p + o) := by
  induction fields generalizing m with
  | nil => rfl
  | cons field fields ih =>
      rw [List.forall_mem_cons] at h
      rw [storeFields_cons, ih h.2]
      apply load32_store32_of_disjoint
      omega

theorem load32_storeFields
    (hapart : fields.Pairwise fun a b => a.1 + 4 ≤ b.1 ∨ b.1 + 4 ≤ a.1)
    (h : (o, v) ∈ fields) :
    load32 (storeFields p fields m) (p + o) = uint32 v := by
  induction fields generalizing m with
  | nil => cases h
  | cons field fields ih =>
      rw [List.pairwise_cons] at hapart
      rw [storeFields_cons]
      rcases List.mem_cons.mp h with rfl | hrest
      · rw [load32_storeFields_of_apart, load32_store32]
        intro field hfield
        exact (hapart.1 field hfield).symm
      · exact ih hapart.2 hrest

theorem storeFields_sameOn {S : Set ℕ}
    (h : ∀ field ∈ fields, Disjoint S (Set.Ico (p + field.1) (p + field.1 + 4))) :
    SameOn S m (storeFields p fields m) := by
  induction fields generalizing m with
  | nil => exact .refl S m
  | cons field fields ih =>
      rw [List.forall_mem_cons] at h
      rw [storeFields_cons]
      exact ((SameOn.refl S m).store32 h.1).trans (ih h.2)

theorem InNode.sameOn (h : InNode fields) :
    SameOn (Set.Ico (p + 128) (p + VfsNode.size))ᶜ m
      (storeFields p fields m) := by
  apply storeFields_sameOn
  intro field hfield
  obtain ⟨hlo, hhi⟩ := h field hfield
  rw [disjoint_comm, Set.disjoint_compl_right_iff_subset]
  exact Set.Ico_subset_Ico (by omega) (by omega)

end Fields

/-! ## A directory -/

structure Directory (link : Link) (m : Memory) (p : ℕ) : Prop where
  flags : load32 m (p + VfsNode.flags) = vfsDirectory
  inode : load32 m (p + VfsNode.inode) = 0
  length : load32 m (p + VfsNode.length) = 0
  read : load32 m (p + VfsNode.read) = 0
  readdir : load32 m (p + VfsNode.readdir) = link.initrdReaddir
  finddir : load32 m (p + VfsNode.finddir) = link.initrdFinddir

section Directory

variable {link : Link} {m m' : Memory} {p fuel : ℕ} {name : List UInt8}

theorem Directory.congr (h : Directory link m p)
    (hsame : SameOn (Set.Ico p (p + VfsNode.size)) m m') :
    Directory link m' p := by
  have hload {o : ℕ} (ho : o + 4 ≤ VfsNode.size) :
      load32 m' (p + o) = load32 m (p + o) :=
    hsame.load32 (Set.Ico_subset_Ico (by omega) (by omega))
  constructor
  · rw [hload (by decide), h.flags]
  · rw [hload (by decide), h.inode]
  · rw [hload (by decide), h.length]
  · rw [hload (by decide), h.read]
  · rw [hload (by decide), h.readdir]
  · rw [hload (by decide), h.finddir]

theorem initDirectory_spec (hname : 0 ∉ name) (hlen : name.length < 128)
    (hfuel : name.length < fuel) :
    ∃ m', initDirectory fuel link p name m = some m' ∧ Directory link m' p ∧
      SameOn (Set.Ico p (p + VfsNode.size))ᶜ m m' := by
  obtain ⟨m₁, hcopy, -, hsame⟩ := @strcpy_reads m (.lit name) name p fuel
    (reads_lit hname) (Set.empty_disjoint _) hfuel
  have hin : InNode (directoryFields link) := by
    simp [InNode, directoryFields, VfsNode.size, VfsNode.length, VfsNode.inode,
      VfsNode.gid, VfsNode.uid, VfsNode.mask, VfsNode.flags, VfsNode.read,
      VfsNode.write, VfsNode.open, VfsNode.close, VfsNode.readdir,
      VfsNode.finddir, VfsNode.ptr, VfsNode.impl]
  have hapart : (directoryFields link).Pairwise
      fun a b => a.1 + 4 ≤ b.1 ∨ b.1 + 4 ≤ a.1 := by
    simp [directoryFields, VfsNode.length, VfsNode.inode, VfsNode.gid,
      VfsNode.uid, VfsNode.mask, VfsNode.flags, VfsNode.read, VfsNode.write,
      VfsNode.open, VfsNode.close, VfsNode.readdir, VfsNode.finddir,
      VfsNode.ptr, VfsNode.impl]
  have hload {o v : ℕ} (hmem : (o, v) ∈ directoryFields link) (hv : v < 2 ^ 32) :
      load32 (storeFields p (directoryFields link) m₁) (p + o) = v := by
    rw [load32_storeFields hapart hmem, uint32_eq_of_lt hv]
  refine ⟨storeFields p (directoryFields link) m₁, ?_, ⟨?_, ?_, ?_, ?_, ?_, ?_⟩,
    ?_⟩
  · rw [initDirectory, hcopy, Option.map_some]
  · exact hload (by simp [directoryFields]) (by decide)
  · exact hload (by simp [directoryFields]) (by decide)
  · exact hload (by simp [directoryFields]) (by decide)
  · exact hload (by simp [directoryFields]) (by decide)
  · exact hload (by simp [directoryFields]) link.readdir_lt
  · exact hload (by simp [directoryFields]) link.finddir_lt
  · apply (hsame.mono ?_).trans (hin.sameOn.mono ?_)
    · exact Set.compl_subset_compl.mpr
        (Set.Ico_subset_Ico le_rfl (by rw [VfsNode.size]; omega))
    · exact Set.compl_subset_compl.mpr (Set.Ico_subset_Ico (by omega) le_rfl)

end Directory

/-! ## A file -/

/-- A file node for the file `i` of `length` bytes. -/
structure FileNode (link : Link) (m : Memory) (p i length : ℕ)
    (name : List UInt8) : Prop where
  name : (Str.ptr p).Reads m name
  flags : load32 m (p + VfsNode.flags) = vfsFile
  inode : load32 m (p + VfsNode.inode) = i
  length : load32 m (p + VfsNode.length) = length
  read : load32 m (p + VfsNode.read) = link.initrdRead

section File

variable {link : Link} {m m' : Memory} {p i length fuel : ℕ}
variable {name : List UInt8} {s : State}

theorem FileNode.congr (h : FileNode link m p i length name)
    (hlen : name.length < 128)
    (hsame : SameOn (Set.Ico p (p + VfsNode.size)) m m') :
    FileNode link m' p i length name := by
  have hload {o : ℕ} (ho : o + 4 ≤ VfsNode.size) :
      load32 m' (p + o) = load32 m (p + o) :=
    hsame.load32 (Set.Ico_subset_Ico (by omega) (by omega))
  constructor
  · apply h.name.congr hsame
    exact Set.Ico_subset_Ico le_rfl (by rw [VfsNode.size]; omega)
  · rw [hload (by decide), h.flags]
  · rw [hload (by decide), h.inode]
  · rw [hload (by decide), h.length]
  · rw [hload (by decide), h.read]

theorem inNode_fileFields : InNode (fileFields link i length) := by
  simp [InNode, fileFields, VfsNode.size, VfsNode.length, VfsNode.inode,
    VfsNode.flags, VfsNode.read, VfsNode.write, VfsNode.open, VfsNode.close,
    VfsNode.readdir, VfsNode.finddir, VfsNode.impl]

theorem fileNode_storeFields (hname : (Str.ptr p).Reads m name)
    (hlen : name.length < 128) (hi : i < 2 ^ 32) (hlength : length < 2 ^ 32) :
    FileNode link (storeFields p (fileFields link i length) m) p i length
      name := by
  have hapart : (fileFields link i length).Pairwise
      fun a b => a.1 + 4 ≤ b.1 ∨ b.1 + 4 ≤ a.1 := by
    simp [fileFields, VfsNode.length, VfsNode.inode, VfsNode.flags,
      VfsNode.read, VfsNode.write, VfsNode.open, VfsNode.close,
      VfsNode.readdir, VfsNode.finddir, VfsNode.impl]
  have hload {o v : ℕ} (hmem : (o, v) ∈ fileFields link i length)
      (hv : v < 2 ^ 32) :
      load32 (storeFields p (fileFields link i length) m) (p + o) = v := by
    rw [load32_storeFields hapart hmem, uint32_eq_of_lt hv]
  constructor
  · apply hname.congr inNode_fileFields.sameOn
    intro x hx hin
    have hlt := hx.2
    have hge := hin.1
    omega
  · exact hload (by simp [fileFields]) (by decide)
  · exact hload (by simp [fileFields]) hi
  · exact hload (by simp [fileFields]) hlength
  · exact hload (by simp [fileFields]) link.read_lt

theorem mountFile_spec
    (hname : (Str.ptr (s.fileHeader i + FileHeader.name)).Reads m name)
    (hlen : name.length < 64) (hfuel : name.length < fuel) (hi : i < 2 ^ 32)
    (hapart : Disjoint
      (Set.Ico (s.fileHeader i) (s.fileHeader i + FileHeader.size))
      (Set.Ico (s.node i) (s.node i + VfsNode.size))) :
    ∃ m', mountFile fuel link s i m = some m' ∧
      FileNode link m' (s.node i) i
        (load32 m (s.fileHeader i + FileHeader.length)) name ∧
      load32 m' (s.fileHeader i + FileHeader.offset) =
        uint32 (load32 m (s.fileHeader i + FileHeader.offset) + s.header) ∧
      SameOn (Set.Ico (s.fileHeader i + FileHeader.offset)
          (s.fileHeader i + FileHeader.offset + 4) ∪
        Set.Ico (s.node i) (s.node i + VfsNode.size))ᶜ m m' := by
  have hsize : VfsNode.size = 184 := rfl
  have hheader : FileHeader.size = 76 := rfl
  have hoffsets : FileHeader.name = 4 ∧ FileHeader.offset = 68 ∧
      FileHeader.length = 72 := ⟨rfl, rfl, rfl⟩
  obtain ⟨hat, hoffset, hlength⟩ := hoffsets
  rw [mountFile]
  generalize s.fileHeader i = h at *
  generalize s.node i = p at *
  have hfields {x y : ℕ} (hx : h ≤ x) (hy : y ≤ h + 76) :
      Set.Ico x y ⊆ (Set.Ico p (p + VfsNode.size))ᶜ :=
    (Set.Ico_subset_Ico hx (by omega)).trans
      (Set.subset_compl_iff_disjoint_right.mpr hapart)
  have hsame₁ : SameOn (Set.Ico (h + FileHeader.offset)
      (h + FileHeader.offset + 4))ᶜ m
      (m.store32 (h + FileHeader.offset)
        (uint32 (load32 m (h + FileHeader.offset) + s.header))) :=
    (SameOn.refl _ m).store32 disjoint_compl_left
  have hload₁ : load32 (m.store32 (h + FileHeader.offset)
      (uint32 (load32 m (h + FileHeader.offset) + s.header)))
        (h + FileHeader.offset) = _ := load32_store32
  rw [uint32_uint32] at hload₁
  generalize m.store32 (h + FileHeader.offset)
    (uint32 (load32 m (h + FileHeader.offset) + s.header)) = m₁ at *
  have hname₁ : (Str.ptr (h + FileHeader.name)).Reads m₁ name := by
    apply hname.congr hsame₁
    intro x hx hin
    have hlt := hx.2
    have hge := hin.1
    omega
  obtain ⟨m₂, hcopy, hname₂, hsame₂⟩ := @strcpy_reads m₁ _ name p fuel hname₁
    (hapart.mono (Set.Ico_subset_Ico (by omega) (by omega))
      (Set.Ico_subset_Ico le_rfl (by omega))) hfuel
  have hin₃ : InNode [(VfsNode.gid, 0), (VfsNode.uid, 0), (VfsNode.mask, 0)] := by
    simp [InNode, VfsNode.gid, VfsNode.uid, VfsNode.mask, VfsNode.size]
  have hsame₃ := @InNode.sameOn m₂ p _ hin₃
  rw [Option.bind_eq_bind, hcopy, Option.bind_some]
  generalize storeFields p
    [(VfsNode.gid, 0), (VfsNode.uid, 0), (VfsNode.mask, 0)] m₂ = m₃ at *
  have hname₃ : (Str.ptr p).Reads m₃ name := by
    apply hname₂.congr hsame₃
    intro x hx hin
    have hlt := hx.2
    have hge := hin.1
    omega
  have hnode₃ : SameOn (Set.Ico p (p + VfsNode.size))ᶜ m₁ m₃ := by
    apply (hsame₂.mono ?_).trans (hsame₃.mono ?_)
    · exact Set.compl_subset_compl.mpr (Set.Ico_subset_Ico le_rfl (by omega))
    · exact Set.compl_subset_compl.mpr (Set.Ico_subset_Ico (by omega) le_rfl)
  have hlength₃ : load32 m₃ (h + FileHeader.length) =
      load32 m (h + FileHeader.length) := by
    rw [hnode₃.load32 (hfields (by omega) (by omega)), hsame₁.load32]
    intro x hx hin
    have hge := hx.1
    have hlt := hin.2
    omega
  have hnode₄ : SameOn (Set.Ico p (p + VfsNode.size))ᶜ m₃
      (storeFields p (fileFields link i (load32 m₃ (h + FileHeader.length)))
        m₃) := by
    apply inNode_fileFields.sameOn.mono
    exact Set.compl_subset_compl.mpr (Set.Ico_subset_Ico (by omega) le_rfl)
  refine ⟨_, rfl, ?_, ?_, ?_⟩
  · rw [← hlength₃]
    exact fileNode_storeFields hname₃ (by omega) hi (load32_lt _ _)
  · rw [hnode₄.load32 (hfields (by omega) (by omega)),
      hnode₃.load32 (hfields (by omega) (by omega)), hload₁]
  · rw [Set.compl_union]
    apply (hsame₁.mono Set.inter_subset_left).trans
    exact (hnode₃.trans hnode₄).mono Set.inter_subset_right

end File

end BabOs.Initrd
