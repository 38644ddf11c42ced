import BabOs.Initrd.Mount

/-!
# Listing and lookup

`vfs_readdir` and `vfs_finddir` on a mounted ramdisk.  Neither of them changes
the ramdisk, so that what they answer depends on the files only.
-/

namespace BabOs.Initrd

open Memory

/-! ## Later states -/

/-- `s'` is `s` after calls, or other work of the kernel, that leave the memory
of the ramdisk alone. -/
def Keeps (files : List File) (s s' : State) : Prop :=
  ∃ mem loads, s' = { s with mem := mem, loads := loads } ∧
    SameOn (s.region (imageSize files) files.length) s.mem mem

section Keeps

variable {link : Link} {files : List File} {s s' s'' : State}

theorem Keeps.refl (files : List File) (s : State) : Keeps files s s :=
  ⟨s.mem, s.loads, rfl, .refl _ _⟩

theorem Keeps.trans (h : Keeps files s s') (h' : Keeps files s' s'') :
    Keeps files s s'' := by
  obtain ⟨mem, loads, rfl, hsame⟩ := h
  obtain ⟨mem', loads', rfl, hsame'⟩ := h'
  exact ⟨mem', loads', rfl, hsame.trans hsame'⟩

theorem Mounted.keeps (h : Mounted link files s) (hkeeps : Keeps files s s') :
    Mounted link files s' := by
  obtain ⟨mem, loads, rfl, hsame⟩ := hkeeps
  obtain ⟨hlayout, hdirent, hcount, hroot, hdev, hfile, hname⟩ := h
  have himage : Set.Ico s.header (s.header + imageSize files) ⊆
      s.region (imageSize files) files.length := Set.subset_union_left
  refine ⟨⟨hlayout.1, hlayout.2, hlayout.3, hlayout.4, hlayout.5, hlayout.6,
    hlayout.7, hlayout.8, hlayout.9, hlayout.10⟩, hdirent, hcount, ?_, ?_, ?_,
    hname⟩
  · exact hroot.congr (hsame.mono
      (Set.subset_union_left.trans Set.subset_union_right))
  · exact hdev.congr (hsame.mono (Set.subset_union_left.trans
      (Set.subset_union_right.trans Set.subset_union_right)))
  · intro i f hf
    have hlt := (List.getElem?_eq_some_iff.mp hf).1
    obtain ⟨hlo, hhi⟩ := @offsetFrom_bounds f files (4 + files.length * 76) i hf
    rw [← imageSize] at hhi
    obtain ⟨hnode, hoffset, hlength, hcontent⟩ := (hfile i f hf).congr hsame
      ((hlayout.node_subset_nodes hlt).trans (Set.subset_union_right.trans
        (Set.subset_union_right.trans Set.subset_union_right)))
      ((hlayout.fileHeader_subset hlt).trans himage)
      ((Set.Ico_subset_Ico (Nat.le_add_right _ _) (by omega)).trans himage)
    exact ⟨hnode, hoffset, hlength, hcontent⟩

/-- Output into the directory entry keeps the ramdisk. -/
theorem Mounted.keeps_dirent (h : Mounted link files s) {m : Memory}
    (hsame : SameOn (Set.Ico link.dirent (link.dirent + Dirent.size))ᶜ s.mem m) :
    Keeps files s { s with mem := m } :=
  ⟨m, s.loads, rfl,
    hsame.mono (Set.subset_compl_iff_disjoint_right.mpr h.dirent)⟩

end Keeps

/-! ## Listing -/

/-- `dirent` holds the entry of `name` and `inode`. -/
structure EntryIs (link : Link) (m : Memory) (name : List UInt8)
    (inode : ℕ) : Prop where
  name : (Str.ptr link.dirent).Reads m name
  inode : load32 m (link.dirent + Dirent.inode) = inode

section Listing

variable {link : Link} {files : List File} {s : State} {m : Memory}
variable {fuel index i : ℕ} {f : File} {src : Str} {name : List UInt8}

theorem Mounted.vfsReaddir_eq (h : Mounted link files s) {node : ℕ}
    (hnode : node = s.root ∨ node = s.dev) :
    vfsReaddir fuel link node index s =
      initrdReaddir fuel link node index s := by
  have hdirectory : Directory link s.mem node := by
    rcases hnode with rfl | rfl
    · exact h.root
    · exact h.dev
  have hpos : link.initrdReaddir ≠ 0 := link.readdir_pos.ne'
  rw [vfsReaddir, hdirectory.flags, hdirectory.readdir]
  rw [if_pos ⟨by decide, hpos⟩, if_pos rfl]

theorem entryIs_of_strcpy (h : src.Reads s.mem name)
    (hlen : name.length < 128) (hfuel : name.length < fuel)
    (hapart : Disjoint (src.range (name.length + 1))
      (Set.Ico link.dirent (link.dirent + Dirent.size))) :
    ∃ m, strcpy fuel link.dirent src s.mem = some m ∧
      SameOn (Set.Ico link.dirent (link.dirent + Dirent.size))ᶜ s.mem m ∧
      ∀ inode < 2 ^ 32, EntryIs link
          (m.store32 (link.dirent + Dirent.inode) inode) name inode ∧
        SameOn (Set.Ico link.dirent (link.dirent + Dirent.size))ᶜ s.mem
          (m.store32 (link.dirent + Dirent.inode) inode) := by
  have hsize : Dirent.size = 132 := rfl
  have hinode : Dirent.inode = 128 := rfl
  obtain ⟨m, hcopy, hreads, hsame⟩ := strcpy_reads h
    (hapart.mono_right (Set.Ico_subset_Ico le_rfl (by omega))) hfuel
  have hsame' : SameOn (Set.Ico link.dirent (link.dirent + Dirent.size))ᶜ
      s.mem m := by
    apply hsame.mono
    exact Set.compl_subset_compl.mpr (Set.Ico_subset_Ico le_rfl (by omega))
  refine ⟨m, hcopy, hsame', fun inode hlt => ⟨⟨?_, ?_⟩, ?_⟩⟩
  · apply hreads.congr ((SameOn.refl _ m).store32 disjoint_compl_left)
    intro x hx hin
    have hhi := hx.2
    have hlo := hin.1
    omega
  · rw [load32_store32, uint32_eq_of_lt hlt]
  · apply hsame'.store32
    rw [disjoint_comm, Set.disjoint_compl_right_iff_subset]
    exact Set.Ico_subset_Ico (by omega) (by omega)

theorem Mounted.readdir_zero_mem (h : Mounted link files s)
    (hfuel : 64 ≤ fuel) :
    ∃ m, vfsReaddir fuel link s.root 0 s =
        some (link.dirent, { s with mem := m }) ∧
      EntryIs link m devName 0 ∧
      SameOn (Set.Ico link.dirent (link.dirent + Dirent.size))ᶜ s.mem m := by
  obtain ⟨m, hcopy, -, hentry⟩ := @entryIs_of_strcpy link s fuel (.lit devName)
    devName (reads_lit (by decide)) (by decide)
    (Nat.lt_of_lt_of_le (by decide) hfuel) (Set.empty_disjoint _)
  refine ⟨_, ?_, hentry 0 (by norm_num)⟩
  rw [h.vfsReaddir_eq (Or.inl rfl), initrdReaddir, if_pos ⟨rfl, rfl⟩,
    Option.bind_eq_bind, hcopy, Option.bind_some]

theorem Mounted.readdir_zero (h : Mounted link files s) (hfuel : 64 ≤ fuel) :
    ∃ s', vfsReaddir fuel link s.root 0 s = some (link.dirent, s') ∧
      EntryIs link s'.mem devName 0 ∧ Keeps files s s' := by
  obtain ⟨m, hreaddir, hentry, hsame⟩ := h.readdir_zero_mem hfuel
  exact ⟨_, hreaddir, hentry, h.keeps_dirent hsame⟩

theorem Mounted.readdir_succ_mem (h : Mounted link files s)
    (hfuel : 64 ≤ fuel) (hf : files[i]? = some f) :
    ∃ m, vfsReaddir fuel link s.root (i + 1) s =
        some (link.dirent, { s with mem := m }) ∧
      EntryIs link m f.text i ∧
      SameOn (Set.Ico link.dirent (link.dirent + Dirent.size))ᶜ s.mem m := by
  have hlt := (List.getElem?_eq_some_iff.mp hf).1
  have hcount := h.layout.count_lt
  have hlen := length_name f
  rw [← length_text] at hlen
  have hsize : VfsNode.size = 184 := rfl
  have hinode : VfsNode.inode = 144 := rfl
  have hnode := (h.file i f hf).node
  have hblock : Set.Ico (s.node i) (s.node i + VfsNode.size) ⊆
      (Set.Ico link.dirent (link.dirent + Dirent.size))ᶜ := by
    apply Set.subset_compl_iff_disjoint_right.mpr
    apply h.dirent.mono_left
    exact (h.layout.node_subset_nodes hlt).trans (Set.subset_union_right.trans
      (Set.subset_union_right.trans Set.subset_union_right))
  obtain ⟨m, hcopy, hsame, hentry⟩ := @entryIs_of_strcpy link s fuel
    (.ptr (s.node i)) f.text hnode.name (by omega) (by omega)
    (Set.subset_compl_iff_disjoint_right.mp
      ((Set.Ico_subset_Ico le_rfl (by omega)).trans hblock))
  have hload : load32 m (s.node i + VfsNode.inode) = i := by
    rw [hsame.load32, hnode.inode]
    exact (Set.Ico_subset_Ico (by omega) (by omega)).trans hblock
  refine ⟨_, ?_, hentry i (by omega)⟩
  have hindex : sub32 (i + 1) 1 = i := sub32_eq_of_le (by omega) (by omega)
  have hcond : s.root = s.root ∧ sub32 (i + 1) 1 < s.nrootNodes := by
    rw [hindex, h.count]
    exact ⟨rfl, hlt⟩
  rw [h.vfsReaddir_eq (Or.inl rfl), initrdReaddir,
    if_neg fun hzero => Nat.succ_ne_zero i hzero.2, if_pos hcond, hindex]
  dsimp only
  rw [Option.bind_eq_bind, hcopy, Option.bind_some, hload]

theorem Mounted.readdir_succ (h : Mounted link files s) (hfuel : 64 ≤ fuel)
    (hf : files[i]? = some f) :
    ∃ s', vfsReaddir fuel link s.root (i + 1) s = some (link.dirent, s') ∧
      EntryIs link s'.mem f.text i ∧ Keeps files s s' := by
  obtain ⟨m, hreaddir, hentry, hsame⟩ := h.readdir_succ_mem hfuel hf
  exact ⟨_, hreaddir, hentry, h.keeps_dirent hsame⟩

theorem Mounted.readdir_end (h : Mounted link files s)
    (hindex : files.length < index) (hlt : index < 2 ^ 32) :
    vfsReaddir fuel link s.root index s = some (0, s) := by
  have hsub : sub32 index 1 = index - 1 := sub32_eq_of_le hlt (by omega)
  have hcond : ¬(s.root = s.root ∧ sub32 index 1 < s.nrootNodes) := by
    rw [hsub, h.count]
    omega
  rw [h.vfsReaddir_eq (Or.inl rfl), initrdReaddir, if_neg (by omega),
    if_neg hcond]

theorem Mounted.readdir_dev (h : Mounted link files s) :
    vfsReaddir fuel link s.dev index s = some (0, s) := by
  have hne := h.layout.root_ne_dev
  rw [h.vfsReaddir_eq (Or.inr rfl), initrdReaddir,
    if_neg fun hroot => hne hroot.1, if_neg fun hroot => hne hroot.1]

end Listing

/-! ## Lookup -/

section Lookup

variable {link : Link} {files : List File} {s : State}
variable {fuel i count node : ℕ} {f : File} {name : Str} {text : List UInt8}

/-- The node of the first file from `i` on that has the name, or `NULL`. -/
theorem Mounted.findNode_spec (h : Mounted link files s)
    (hname : name.Reads s.mem text) (hfuel : text.length < fuel)
    (hcount : i + count = files.length) :
    (∃ j f, i ≤ j ∧ files[j]? = some f ∧ f.text = text ∧
        findNode fuel name s count i = some (s.node j) ∧
        ∀ k g, i ≤ k → k < j → files[k]? = some g → g.text ≠ text) ∨
      (findNode fuel name s count i = some 0 ∧
        ∀ k g, i ≤ k → files[k]? = some g → g.text ≠ text) := by
  induction count generalizing i with
  | zero =>
      refine Or.inr ⟨rfl, fun k g hk hg => ?_⟩
      have hlt := (List.getElem?_eq_some_iff.mp hg).1
      omega
  | succ count ih =>
      have hlt : i < files.length := by omega
      have hf := List.getElem?_eq_getElem hlt
      obtain ⟨v, hcmp, hiff⟩ :=
        strcmp_reads hname (h.file i _ hf).node.name hfuel
      rw [findNode, Option.bind_eq_bind, hcmp, Option.bind_some]
      by_cases hv : v = 0
      · refine Or.inl ⟨i, _, le_rfl, hf, (hiff.mp hv).symm, if_pos hv, ?_⟩
        intro k g hk hlt
        omega
      · have hne : files[i].text ≠ text := fun heq => hv (hiff.mpr heq.symm)
        have hother {k : ℕ} {g : File} (hk : i ≤ k) (hg : files[k]? = some g)
            (hrest : i + 1 ≤ k → g.text ≠ text) : g.text ≠ text := by
          rcases Nat.eq_or_lt_of_le hk with rfl | hlater
          · obtain rfl := Option.some.inj (hf.symm.trans hg)
            exact hne
          · exact hrest hlater
        rw [if_neg hv]
        rcases @ih (i + 1) (by omega) with
          ⟨j, g, hj, hg, htext, hfind, hfirst⟩ | ⟨hfind, hnone⟩
        · refine Or.inl ⟨j, g, by omega, hg, htext, hfind, ?_⟩
          intro k g' hk hkj hg'
          exact hother hk hg' fun hlater => hfirst k g' hlater hkj hg'
        · refine Or.inr ⟨hfind, fun k g hk hg => ?_⟩
          exact hother hk hg fun hlater => hnone k g hlater hg

theorem Mounted.vfsFinddir_eq (h : Mounted link files s)
    (hnode : node = s.root ∨ node = s.dev) :
    vfsFinddir fuel link node name s = initrdFinddir fuel node name s := by
  have hdirectory : Directory link s.mem node := by
    rcases hnode with rfl | rfl
    · exact h.root
    · exact h.dev
  have hpos : link.initrdFinddir ≠ 0 := link.finddir_pos.ne'
  rw [vfsFinddir, hdirectory.flags, hdirectory.finddir]
  rw [if_pos ⟨by decide, hpos⟩, if_pos rfl]

theorem Mounted.rounds_eq (h : Mounted link files s) :
    s.rounds = files.length := by
  have hcount := h.layout.count_lt
  rw [State.rounds, h.count, if_pos hcount]

/-- In the root, the name `dev` finds the `dev` directory. -/
theorem Mounted.finddir_dev (h : Mounted link files s)
    (hname : name.Reads s.mem devName) (hfuel : 3 < fuel) :
    vfsFinddir fuel link s.root name s = some s.dev := by
  obtain ⟨v, hcmp, hiff⟩ := @strcmp_reads s.mem name (.lit devName)
    devName devName fuel hname (reads_lit (by decide)) hfuel
  rw [h.vfsFinddir_eq (Or.inl rfl), initrdFinddir, if_pos rfl, hcmp,
    hiff.mpr rfl]
  rfl

/-- Every other name, and every name in the `dev` directory, finds a file. -/
theorem Mounted.finddir_file (h : Mounted link files s)
    (hname : name.Reads s.mem text) (hfuel : text.length < fuel)
    (hnode : node = s.root ∧ text ≠ devName ∨ node = s.dev) :
    vfsFinddir fuel link node name s =
      findNode fuel name s files.length 0 := by
  rw [h.vfsFinddir_eq (hnode.imp_left And.left), initrdFinddir, h.rounds_eq]
  rcases hnode with ⟨rfl, hne⟩ | rfl
  · obtain ⟨v, hcmp, hiff⟩ := @strcmp_reads s.mem name (.lit devName)
      text devName fuel hname (reads_lit (by decide)) hfuel
    have hv : decide (v = 0) = false := by
      rw [decide_eq_false_iff_not, hiff]
      exact hne
    rw [if_pos rfl, hcmp, Option.map_some, hv]
    rfl
  · rw [if_neg h.layout.root_ne_dev]
    rfl

end Lookup

/-! ## Agreement -/

/-- `node` lists an entry of the name `text` with the number `inode`. -/
def Lists (fuel : ℕ) (link : Link) (node : ℕ) (s : State) (text : List UInt8)
    (inode : ℕ) : Prop :=
  ∃ index < 2 ^ 32, ∃ s',
    vfsReaddir fuel link node index s = some (link.dirent, s') ∧
      EntryIs link s'.mem text inode

/-- `vfs_finddir` finds the name `text` in `node` exactly when `node` lists it,
and what it finds has the number of every entry with the name. -/
def LookupAgrees (fuel : ℕ) (link : Link) (node : ℕ) (s : State)
    (text : List UInt8) : Prop :=
  ∀ name : Str, name.Reads s.mem text →
    ∃ p, vfsFinddir fuel link node name s = some p ∧
      (p ≠ 0 ↔ ∃ inode, Lists fuel link node s text inode) ∧
      ∀ inode, Lists fuel link node s text inode →
        load32 s.mem (p + VfsNode.inode) = inode

/-- At most one file has the name, and only the first one may be `dev`. -/
def OneEntry (files : List File) (text : List UInt8) : Prop :=
  ∀ i f, files[i]? = some f → f.text = text →
    (text = devName → i = 0) ∧
      ∀ j g, files[j]? = some g → g.text = text → j = i

section Agreement

variable {link : Link} {files : List File} {s : State} {m : Memory}
variable {fuel inode inode' : ℕ} {text text' : List UInt8}

theorem EntryIs.unique (h : EntryIs link m text inode)
    (h' : EntryIs link m text' inode') : text = text' ∧ inode = inode' :=
  ⟨h.name.unique h'.name, h.inode.symm.trans h'.inode⟩

theorem Mounted.lists_root_iff (h : Mounted link files s) (hfuel : 64 ≤ fuel) :
    Lists fuel link s.root s text inode ↔
      (text = devName ∧ inode = 0) ∨
        ∃ f, files[inode]? = some f ∧ f.text = text := by
  have hcount := h.layout.count_lt
  constructor
  · rintro ⟨index, hlt, s', hreaddir, hentry⟩
    rcases Nat.eq_zero_or_pos index with rfl | hpos
    · obtain ⟨s₀, hreaddir₀, hentry₀, -⟩ := h.readdir_zero hfuel
      rw [hreaddir₀] at hreaddir
      obtain ⟨-, rfl⟩ := Prod.mk.inj (Option.some.inj hreaddir)
      exact Or.inl (hentry.unique hentry₀)
    · rcases Nat.lt_or_ge files.length index with hend | hle
      · rw [h.readdir_end hend hlt] at hreaddir
        obtain ⟨hzero, -⟩ := Prod.mk.inj (Option.some.inj hreaddir)
        exact absurd hzero link.dirent_pos.ne
      · obtain ⟨i, rfl⟩ := Nat.exists_eq_add_of_le' hpos
        have hf := List.getElem?_eq_getElem (show i < files.length from hle)
        obtain ⟨s₀, hreaddir₀, hentry₀, -⟩ := h.readdir_succ hfuel hf
        rw [hreaddir₀] at hreaddir
        obtain ⟨-, rfl⟩ := Prod.mk.inj (Option.some.inj hreaddir)
        obtain ⟨rfl, rfl⟩ := hentry.unique hentry₀
        exact Or.inr ⟨_, hf, rfl⟩
  · rintro (⟨rfl, rfl⟩ | ⟨f, hf, rfl⟩)
    · obtain ⟨s', hreaddir, hentry, -⟩ := h.readdir_zero hfuel
      exact ⟨0, by norm_num, s', hreaddir, hentry⟩
    · have hlt := (List.getElem?_eq_some_iff.mp hf).1
      obtain ⟨s', hreaddir, hentry, -⟩ := h.readdir_succ hfuel hf
      exact ⟨inode + 1, by omega, s', hreaddir, hentry⟩

theorem Mounted.not_lists_dev (h : Mounted link files s) :
    ¬Lists fuel link s.dev s text inode := by
  rintro ⟨index, -, s', hreaddir, -⟩
  rw [h.readdir_dev] at hreaddir
  obtain ⟨hzero, -⟩ := Prod.mk.inj (Option.some.inj hreaddir)
  exact link.dirent_pos.ne hzero

theorem Mounted.node_pos (h : Mounted link files s) {i : ℕ}
    (hi : i < files.length) : 0 < s.node i := by
  have hpos := h.layout.nodes_pos
  rw [(h.layout.node hi).1]
  omega

/-- In the root, lookup agrees with the list when at most one entry has the
name. -/
theorem Mounted.lookupAgrees_root_iff (h : Mounted link files s)
    (hfuel : 64 ≤ fuel) (htext : 0 ∉ text) (hlen : text.length < fuel) :
    LookupAgrees fuel link s.root s text ↔ OneEntry files text := by
  by_cases hdev : text = devName
  · subst hdev
    have hfind : ∀ name : Str, name.Reads s.mem devName →
        vfsFinddir fuel link s.root name s = some s.dev :=
      fun name hname => h.finddir_dev hname (by omega)
    constructor
    · intro hagrees i f hf hname
      have hzero {j : ℕ} {g : File} (hg : files[j]? = some g)
          (hgname : g.text = devName) : j = 0 := by
        obtain ⟨p, hp, -, hinode⟩ := hagrees _ (reads_lit htext)
        obtain rfl := Option.some.inj ((hfind _ (reads_lit htext)).symm.trans hp)
        have hlist := hinode j ((h.lists_root_iff hfuel).mpr
          (Or.inr ⟨g, hg, hgname⟩))
        exact hlist.symm.trans h.dev.inode
      exact ⟨fun _ => hzero hf hname, fun j g hg hgname =>
        (hzero hg hgname).trans (hzero hf hname).symm⟩
    · intro hone name hname
      refine ⟨s.dev, hfind name hname, iff_of_true h.layout.dev_pos.ne' ?_, ?_⟩
      · exact ⟨0, (h.lists_root_iff hfuel).mpr (Or.inl ⟨rfl, rfl⟩)⟩
      · intro inode hlists
        rw [h.dev.inode]
        rcases (h.lists_root_iff hfuel).mp hlists with ⟨-, rfl⟩ | ⟨f, hf, hfname⟩
        · rfl
        · exact ((hone inode f hf hfname).1 rfl).symm
  · have hlists : ∀ inode, Lists fuel link s.root s text inode ↔
        ∃ f, files[inode]? = some f ∧ f.text = text := by
      intro inode
      rw [h.lists_root_iff hfuel]
      exact or_iff_right fun hboth => hdev hboth.1
    have hfind {name : Str} (hname : name.Reads s.mem text) :=
      h.finddir_file hname hlen (Or.inl ⟨rfl, hdev⟩)
    constructor
    · intro hagrees i f hf hfname
      refine ⟨fun hboth => absurd hboth hdev, fun j g hg hgname => ?_⟩
      obtain ⟨p, hp, -, hinode⟩ := hagrees _ (reads_lit htext)
      have hi := hinode i ((hlists i).mpr ⟨f, hf, hfname⟩)
      have hj := hinode j ((hlists j).mpr ⟨g, hg, hgname⟩)
      exact hj.symm.trans hi
    · intro hone name hname
      rcases h.findNode_spec hname hlen (Nat.zero_add _) with
        ⟨j, f, -, hf, hfname, hnode, -⟩ | ⟨hnode, hnone⟩
      · have hlt := (List.getElem?_eq_some_iff.mp hf).1
        refine ⟨s.node j, (hfind hname).trans hnode,
          iff_of_true (h.node_pos hlt).ne' ⟨j, (hlists j).mpr ⟨f, hf, hfname⟩⟩,
          fun inode hlist => ?_⟩
        obtain ⟨g, hg, hgname⟩ := (hlists inode).mp hlist
        rw [(h.file j f hf).node.inode]
        exact (hone inode g hg hgname).2 j f hf hfname
      · refine ⟨0, (hfind hname).trans hnode, iff_of_false (by simp) ?_, ?_⟩
        · rintro ⟨inode, hlist⟩
          obtain ⟨g, hg, hgname⟩ := (hlists inode).mp hlist
          exact hnone inode g (Nat.zero_le _) hg hgname
        · intro inode hlist
          obtain ⟨g, hg, hgname⟩ := (hlists inode).mp hlist
          exact absurd hgname (hnone inode g (Nat.zero_le _) hg)

/-- In the `dev` directory, lookup agrees with the empty list when no file has
the name. -/
theorem Mounted.lookupAgrees_dev_iff (h : Mounted link files s)
    (htext : 0 ∉ text) (hlen : text.length < fuel) :
    LookupAgrees fuel link s.dev s text ↔ ∀ f ∈ files, f.text ≠ text := by
  have hfind {name : Str} (hname : name.Reads s.mem text) :=
    h.finddir_file hname hlen (Or.inr rfl)
  constructor
  · intro hagrees f hf hfname
    obtain ⟨p, hp, hiff, -⟩ := hagrees _ (reads_lit htext)
    have hnull : p = 0 := by
      by_contra hne
      obtain ⟨inode, hlist⟩ := hiff.mp hne
      exact h.not_lists_dev hlist
    rw [hfind (reads_lit htext)] at hp
    rcases h.findNode_spec (reads_lit htext) hlen (Nat.zero_add _) with
      ⟨j, g, -, hg, -, hnode, -⟩ | ⟨-, hnone⟩
    · have hlt := (List.getElem?_eq_some_iff.mp hg).1
      have heq := Option.some.inj (hnode.symm.trans hp)
      exact (h.node_pos hlt).ne' (heq.trans hnull)
    · obtain ⟨i, hi, rfl⟩ := List.getElem_of_mem hf
      exact hnone i _ (Nat.zero_le i) (List.getElem?_eq_getElem hi) hfname
  · intro hnone name hname
    rcases h.findNode_spec hname hlen (Nat.zero_add _) with
      ⟨j, g, -, hg, hgname, -, -⟩ | ⟨hnode, -⟩
    · exact absurd hgname (hnone g (List.mem_of_getElem? hg))
    · refine ⟨0, (hfind hname).trans hnode, iff_of_false (by simp) ?_, ?_⟩
      · rintro ⟨inode, hlist⟩
        exact h.not_lists_dev hlist
      · intro inode hlist
        exact absurd hlist h.not_lists_dev

end Agreement

/-- Listing and lookup agree on a name if and only if, in the root, at most one
entry has it, and, in the `dev` directory, no file has it: the search does not
test which directory it is in, and takes the first file with the name. -/
theorem initialiseInitrd_lookupAgrees_iff {link : Link} {kmalloc : Kmalloc}
    {files : List File} {image : List UInt8} {location fuel : ℕ}
    {used : Set ℕ} {m : Memory} (hfuel : 64 ≤ fuel)
    (hrounds : files.length < fuel)
    (hready : Ready link kmalloc files image location used m) :
    ∃ s, initialiseInitrd fuel link kmalloc location m = some (s.root, s) ∧
      ∀ s', Keeps files s s' → ∀ text, 0 ∉ text → text.length < fuel →
        (LookupAgrees fuel link s'.root s' text ↔ OneEntry files text) ∧
          (LookupAgrees fuel link s'.dev s' text ↔
            ∀ f ∈ files, f.text ≠ text) := by
  obtain ⟨s, hmount, -, hmounted⟩ := initialiseInitrd_mounted hfuel hrounds hready
  refine ⟨s, hmount, fun s' hkeeps text htext hlen => ?_⟩
  have hmounted' := hmounted.keeps hkeeps
  exact ⟨hmounted'.lookupAgrees_root_iff hfuel htext hlen,
    hmounted'.lookupAgrees_dev_iff htext hlen⟩

theorem initialiseInitrd_lookupAgrees_iff_twoFiles :
    ∃ image s, initialiseInitrd 64 lowLink bump 0x2000 (loadedAt image) =
        some (s.root, s) ∧
      LookupAgrees 64 lowLink s.root s emptyFile.text ∧
      ¬LookupAgrees 64 lowLink s.dev s emptyFile.text := by
  obtain ⟨image, hready⟩ := exists_ready_twoFiles
  obtain ⟨s, hmount, hagrees⟩ := initialiseInitrd_lookupAgrees_iff
    (show 64 ≤ 64 from le_rfl) (by decide) hready
  obtain ⟨hroot, hdev⟩ :=
    hagrees s (.refl _ _) emptyFile.text (by decide) (by decide)
  have hindex : ∀ j g, twoFiles[j]? = some g → g.text = emptyFile.text →
      j = 1 := by
    intro j g hg htext
    obtain _ | _ | j := j
    · obtain rfl : smallFile = g := Option.some.inj hg
      exact absurd htext (by decide)
    · rfl
    · cases hg
  refine ⟨image, s, hmount, hroot.mpr fun i f hf htext => ?_, fun h => ?_⟩
  · obtain rfl := hindex i f hf htext
    exact ⟨fun hdev => absurd hdev (by decide), hindex⟩
  · exact hdev.mp h emptyFile (List.mem_pair.mpr (Or.inr rfl)) rfl

/-- The `dev` directory lists no file `a`, but `a` is found in it. -/
theorem not_lookupAgrees_dev :
    ∃ image s, mkinitrd [smallFile] = some image ∧
      initialiseInitrd 64 lowLink bump 0x2000 (loadedAt image) =
        some (s.root, s) ∧
      ¬LookupAgrees 64 lowLink s.dev s smallFile.text := by
  obtain ⟨image, hready⟩ := exists_ready_smallFile
  obtain ⟨s, hmount, -, hmounted⟩ := initialiseInitrd_mounted
    (show 64 ≤ 64 from le_rfl) (by decide) hready
  refine ⟨image, s, hready.packed, hmount, fun hagrees => ?_⟩
  rw [hmounted.lookupAgrees_dev_iff (by decide) (by decide)] at hagrees
  exact hagrees smallFile (List.mem_singleton_self _) rfl

end BabOs.Initrd
