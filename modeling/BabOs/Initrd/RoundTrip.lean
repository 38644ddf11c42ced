import BabOs.Initrd.Reads

/-!
# From the packer to the reader

What the packer writes is what the kernel reads: the root lists `dev` and then
the files, every file is found by its name, and a read of its whole length gives
its content.
-/

namespace BabOs.Initrd

open Memory

/-! ## Names -/

/-- The names of the files are ASCII, short, different, and not `dev`. -/
structure WellNamed (files : List File) : Prop where
  path : ∀ f ∈ files, '\x00' ∉ f.path
  nonempty : ∀ f ∈ files, f.baseName ≠ []
  ascii : ∀ f ∈ files, ∀ c ∈ f.baseName, c.toNat < 128
  length : ∀ f ∈ files, f.baseName.length ≤ 63
  different : (files.map File.baseName).Nodup
  ne_dev : ∀ f ∈ files, f.baseName ≠ ['d', 'e', 'v']

section Names

variable {files : List File} {f g : File} {i j : ℕ} {xs ys : List Char}

/-- ASCII characters and their bytes determine each other. -/
theorem eq_of_map_asciiByte_eq (hxs : ∀ c ∈ xs, c.toNat < 128)
    (hys : ∀ c ∈ ys, c.toNat < 128)
    (h : xs.map asciiByte = ys.map asciiByte) : xs = ys := by
  have htoNat {zs : List Char} (hzs : ∀ c ∈ zs, c.toNat < 128) :
      (zs.map asciiByte).map UInt8.toNat = zs.map Char.toNat := by
    rw [List.map_map]
    exact List.map_congr_left fun c hc => toNat_asciiByte (hzs c hc)
  have hnat : xs.map Char.toNat = ys.map Char.toNat := by
    rw [← htoNat hxs, ← htoNat hys, h]
  exact List.map_injective_iff.mpr (fun _ _ => Char.toNat_inj.mp) hnat

theorem WellNamed.text_eq (h : WellNamed files) (hf : f ∈ files) :
    f.text = f.baseName.map asciiByte := by
  rw [File.text, name_eq (h.length f hf)]

theorem WellNamed.packable (h : WellNamed files) (hf : f ∈ files) :
    f.Packable := by
  constructor
  · exact h.path f hf
  · rw [name_eq (h.length f hf)]
    exact h.ascii f hf

theorem WellNamed.text_ne_dev (h : WellNamed files) (hf : f ∈ files) :
    f.text ≠ devName := by
  intro heq
  rw [h.text_eq hf, show devName = ['d', 'e', 'v'].map asciiByte from rfl] at heq
  exact h.ne_dev f hf (eq_of_map_asciiByte_eq (h.ascii f hf) (by simp) heq)

theorem WellNamed.index_unique (h : WellNamed files) (hf : files[i]? = some f)
    (hg : files[j]? = some g) (htext : f.text = g.text) : i = j := by
  have hf' := List.mem_of_getElem? hf
  have hg' := List.mem_of_getElem? hg
  rw [h.text_eq hf', h.text_eq hg'] at htext
  have hname := eq_of_map_asciiByte_eq (h.ascii f hf') (h.ascii g hg') htext
  have hlt : i < (files.map File.baseName).length := by
    rw [List.length_map]
    exact (List.getElem?_eq_some_iff.mp hf).1
  apply (List.getElem?_inj hlt h.different).mp
  rw [List.getElem?_map, List.getElem?_map, hf, hg, Option.map_some,
    Option.map_some, hname]

end Names

/-! ## The round trip -/

/-- The root lists `dev` and then the files, in packing order. -/
structure ListsFiles (fuel : ℕ) (link : Link) (files : List File)
    (s : State) : Prop where
  dev : ∃ s', vfsReaddir fuel link s.root 0 s = some (link.dirent, s') ∧
    EntryIs link s'.mem devName 0 ∧ Keeps files s s'
  file : ∀ i f, files[i]? = some f →
    ∃ s', vfsReaddir fuel link s.root (i + 1) s = some (link.dirent, s') ∧
      EntryIs link s'.mem (f.baseName.map asciiByte) i ∧ Keeps files s s'
  none : ∀ index < 2 ^ 32, files.length < index →
    vfsReaddir fuel link s.root index s = some (0, s)

/-- The name of the file `i` finds its node, and a read of its length gives its
content. -/
def ReadsBack (fuel : ℕ) (link : Link) (files : List File) (s : State) (i : ℕ)
    (f : File) : Prop :=
  ∀ name : Str, name.Reads s.mem (f.baseName.map asciiByte) →
    ∃ node, vfsFinddir fuel link s.root name s = some node ∧ node ≠ 0 ∧
      load32 s.mem (node + VfsNode.inode) = i ∧
      load32 s.mem (node + VfsNode.length) = f.content.length ∧
      ∀ buf, Buffer files s buf f.content.length →
        ∃ s', vfsRead link node 0 f.content.length buf s =
            some (f.content.length, s') ∧
          Holds s'.mem buf f.content ∧ Keeps files s s'

section RoundTrip

variable {link : Link} {files : List File} {s : State} {fuel i : ℕ} {f : File}

theorem Mounted.listsFiles (h : Mounted link files s) (hfuel : 64 ≤ fuel)
    (hnames : WellNamed files) : ListsFiles fuel link files s := by
  constructor
  · exact h.readdir_zero hfuel
  · intro i f hf
    rw [← hnames.text_eq (List.mem_of_getElem? hf)]
    exact h.readdir_succ hfuel hf
  · intro index hlt hend
    exact h.readdir_end hend hlt

theorem Mounted.readsBack (h : Mounted link files s) (hfuel : 64 ≤ fuel)
    (hnames : WellNamed files) (hf : files[i]? = some f) :
    ReadsBack fuel link files s i f := by
  have hmem := List.mem_of_getElem? hf
  intro name hname
  rw [← hnames.text_eq hmem] at hname
  have hlen : f.text.length < fuel := by
    have hle := length_name f
    rw [length_text]
    omega
  have hfind := h.finddir_file hname hlen
    (Or.inl ⟨rfl, hnames.text_ne_dev hmem⟩)
  rcases h.findNode_spec hname hlen (Nat.zero_add _) with
    ⟨j, g, -, hg, htext, hnode, -⟩ | ⟨-, hnone⟩
  · obtain rfl := hnames.index_unique hg hf htext
    obtain rfl := Option.some.inj (hg.symm.trans hf)
    have hlt := (List.getElem?_eq_some_iff.mp hf).1
    refine ⟨s.node j, hfind.trans hnode, (h.node_pos hlt).ne',
      (h.file j g hf).node.inode, (h.file j g hf).node.length, fun buf hbuf => ?_⟩
    obtain ⟨himage, -⟩ := h.content_bounds hf
    have hclip : clipped g.content.length 0 g.content.length =
        g.content.length := by
      rw [clipped, if_pos (Nat.zero_le _), Nat.sub_zero, Nat.min_self]
    obtain ⟨s', hread, hbytes, -, -, -, hkeeps⟩ := h.readsClipped hf
      (by rwa [hclip]) (Or.inr (show 0 + g.content.length < 2 ^ 32 by omega))
    rw [hclip] at hread
    rw [hclip, List.drop_zero, List.take_length] at hbytes
    exact ⟨s', hread, hbytes, hkeeps⟩
  · exact absurd rfl (hnone i f (Nat.zero_le i) hf)

end RoundTrip

/-- The packer takes every list of well-named files that fits, and the kernel
reads back what was packed. -/
theorem mkinitrd_roundTrip {files : List File} {location fuel : ℕ}
    (hfuel : 64 ≤ fuel) (hrounds : files.length < fuel) (hempty : files ≠ [])
    (hnames : WellNamed files) (hsize : location + imageSize files < 2 ^ 32)
    (hnodes : VfsNode.size * files.length < 2 ^ 32) :
    ∃ image, mkinitrd files = some image ∧ image.length = imageSize files ∧
      ∀ link kmalloc used m, Ready link kmalloc files image location used m →
        ∃ s, initialiseInitrd fuel link kmalloc location m = some (s.root, s) ∧
          s.root ≠ 0 ∧
          ∀ s', Keeps files s s' →
            ListsFiles fuel link files s' ∧
              ∀ i f, files[i]? = some f → ReadsBack fuel link files s' i f := by
  have hcount : VfsNode.size = 184 := rfl
  rw [hcount] at hnodes
  obtain ⟨headers, hheaders⟩ := exists_packHeaders
    (fun f hf => hnames.packable hf) (show imageSize files < 2 ^ 32 by omega)
  have himage := mkinitrd_eq_some_iff.mpr
    ⟨hempty, by omega, headers, hheaders, rfl⟩
  refine ⟨_, himage, length_image himage, fun link kmalloc used m hready => ?_⟩
  obtain ⟨s, hmount, -, hmounted⟩ := initialiseInitrd_mounted hfuel hrounds hready
  refine ⟨s, hmount, hmounted.layout.root_pos.ne', fun s' hkeeps => ?_⟩
  have hmounted' := hmounted.keeps hkeeps
  exact ⟨hmounted'.listsFiles hfuel hnames,
    fun i f hf => hmounted'.readsBack hfuel hnames hf⟩

theorem mkinitrd_roundTrip_twoFiles :
    ∃ image s, mkinitrd twoFiles = some image ∧
      initialiseInitrd 64 lowLink bump 0x2000 (loadedAt image) =
        some (s.root, s) ∧
      ListsFiles 64 lowLink twoFiles s ∧
      ReadsBack 64 lowLink twoFiles s 0 smallFile ∧
      ReadsBack 64 lowLink twoFiles s 1 emptyFile := by
  have hsmall : smallFile.baseName = ['a'] := by decide
  have hempty : emptyFile.baseName = ['b'] := by decide
  have hnames : WellNamed twoFiles := by
    have hpaths : smallFile.path = ['a'] ∧ emptyFile.path = ['b'] := ⟨rfl, rfl⟩
    constructor <;> simp [twoFiles, hsmall, hempty, hpaths]
  obtain ⟨image, himage, -, hall⟩ := @mkinitrd_roundTrip twoFiles 0x2000 64
    le_rfl (by decide) (List.cons_ne_nil _ _) hnames (by decide) (by decide)
  obtain ⟨image', hready⟩ := exists_ready_twoFiles
  obtain rfl := Option.some.inj (hready.packed.symm.trans himage)
  obtain ⟨s, hmount, -, hback⟩ := hall _ _ _ _ hready
  obtain ⟨hlists, hreads⟩ := hback s (.refl _ _)
  exact ⟨_, s, himage, hmount, hlists, hreads 0 smallFile rfl,
    hreads 1 emptyFile rfl⟩

end BabOs.Initrd
