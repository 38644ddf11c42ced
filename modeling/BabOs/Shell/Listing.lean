import BabOs.Shell.Output

/-!
# `ls` and the lookup of names

The listing shows the directory `dev` and then the files in packing order, each
with what `vfs_finddir` finds under its name.
-/

namespace BabOs.Initrd

open Memory Fuel

/-! ## Fuel -/

section Steady

variable {link : Link} {s : State}

theorem steady_strcpy (dest : ℕ) (src : Str) (m : Memory) :
    Steady (strcpy · dest src m) := by
  refine steady_of_succ fun n => ?_
  simp only [strcpy]
  generalize (0 : ℕ) = i
  induction n generalizing i m with
  | zero => exact fun _ h => absurd h (Option.some_ne_none _).symm
  | succ n ih =>
      intro x h
      rw [strcpyFrom] at h ⊢
      split_ifs at h ⊢
      · exact h
      · exact ih _ _ x h

theorem steady_strcmp (s₁ s₂ : Str) (m : Memory) :
    Steady (strcmp · s₁ s₂ m) := by
  refine steady_of_succ fun n => ?_
  simp only [strcmp]
  generalize (0 : ℕ) = i
  induction n generalizing i with
  | zero => exact fun _ h => absurd h (Option.some_ne_none _).symm
  | succ n ih =>
      intro x h
      rw [strcmpFrom] at h ⊢
      split_ifs at h ⊢
      · exact ih _ x h
      · exact h

theorem steady_findNode (name : Str) (count i : ℕ) :
    Steady (findNode · name s count i) := by
  induction count generalizing i with
  | zero => exact steady_const _
  | succ count ih =>
      exact (steady_strcmp _ _ _).bind fun _ =>
        Steady.ite (fun _ => steady_const _) fun _ => ih (i + 1)

theorem steady_vfsFinddir (node : ℕ) (name : Str) :
    Steady (vfsFinddir · link node name s) := by
  refine Steady.ite (fun _ => Steady.ite (fun _ => ?_) fun _ =>
    steady_const _) fun _ => steady_const _
  have hfile : ∀ dev : Bool,
      Steady fun n => if dev then some s.dev else findNode n name s s.rounds 0 :=
    fun _ => Steady.ite (fun _ => steady_const _) fun _ => steady_findNode _ _ _
  simp only [initrdFinddir, Option.bind_eq_bind]
  exact Steady.ite (fun _ => ((steady_strcmp _ _ _).map _).bind hfile) fun _ =>
    (steady_const _).bind hfile

theorem steady_vfsReaddir (node index : ℕ) :
    Steady (vfsReaddir · link node index s) := by
  refine Steady.ite (fun _ => Steady.ite (fun _ => ?_) fun _ =>
    steady_const _) fun _ => steady_const _
  refine Steady.ite (fun _ => ?_) fun _ => Steady.ite (fun _ => ?_) fun _ =>
    steady_const _
  · exact (steady_strcpy _ _ _).bind fun _ => steady_const _
  · exact (steady_strcpy _ _ _).bind fun _ => steady_const _

end Steady

end BabOs.Initrd

namespace BabOs.Shell

open Memory Initrd Kheap Blocks Fuel Terminal.Printf

/-! ## Lookup -/

/-- The node `p` stands for the entry. -/
inductive Stands (files : List File) (r : Initrd.State) : Option Entry → ℕ → Prop
  | missing : Stands files r none 0
  | directory : Stands files r (some .directory) r.dev
  | file {i : ℕ} {f : File} (hf : files[i]? = some f) :
      Stands files r (some (.file f.content)) (r.node i)

section Lookup

variable {link : Initrd.Link} {files : List File} {r : Initrd.State}
variable {name : Str} {text : List UInt8} {f : File}

theorem lookup_file {i : ℕ} (hf : files[i]? = some f) (htext : f.text = text)
    (hdev : text ≠ devName)
    (hfirst : ∀ k g, k < i → files[k]? = some g → g.text ≠ text) :
    lookup files text = some (.file f.content) := by
  obtain ⟨hi, hget⟩ := List.getElem?_eq_some_iff.mp hf
  have hfind : files.find? (fun f => f.text = text) = some f := by
    refine List.find?_eq_some_iff_getElem.mpr
      ⟨decide_eq_true htext, i, hi, hget, fun k hk => ?_⟩
    have hne := hfirst k _ hk (List.getElem?_eq_getElem (hk.trans hi))
    simpa using hne
  rw [lookup, if_neg hdev, hfind]
  rfl

theorem lookup_none (hdev : text ≠ devName)
    (hnone : ∀ f ∈ files, f.text ≠ text) : lookup files text = none := by
  have hfind : files.find? (fun f => f.text = text) = none := by
    rw [List.find?_eq_none]
    simpa using hnone
  rw [lookup, if_neg hdev, hfind]
  rfl

/-- In the root, `vfs_finddir` finds what the name stands for. -/
theorem finddir_settles (h : Mounted link files r)
    (hname : name.Reads r.mem text) :
    ∃ p, Settles (vfsFinddir · link r.root name r) p ∧
      Stands files r (lookup files text) p := by
  have hsteady : Steady (vfsFinddir · link r.root name r) :=
    steady_vfsFinddir r.root name
  by_cases hdev : text = devName
  · subst hdev
    refine ⟨r.dev, hsteady.settles (n := 4)
      (h.finddir_dev hname (by norm_num)), ?_⟩
    rw [lookup, if_pos rfl]
    exact Stands.directory
  · have hlt : text.length < text.length + 1 := Nat.lt_succ_self _
    have hfind := h.finddir_file hname hlt (Or.inl ⟨rfl, hdev⟩)
    rcases h.findNode_spec hname hlt (Nat.zero_add _) with
      ⟨i, f, -, hf, htext, hnode, hfirst⟩ | ⟨hnode, hnone⟩
    · refine ⟨_, hsteady.settles (hfind.trans hnode), ?_⟩
      rw [lookup_file hf htext hdev fun k g => hfirst k g (Nat.zero_le k)]
      exact Stands.file hf
    · refine ⟨_, hsteady.settles (hfind.trans hnode), ?_⟩
      rw [lookup_none hdev]
      · exact Stands.missing
      · intro f hf
        obtain ⟨i, hi⟩ := List.getElem?_of_mem hf
        exact hnone i f (Nat.zero_le i) hi

end Lookup

/-! ## The listing -/

def names (files : List File) : List (List UInt8) :=
  devName :: files.map File.text

section Listing

variable {σ : Type} {link : Link} {files : List File} {bs : List Blk}
variable {s : State σ} {name : List UInt8} {i : ℕ}

theorem lookup_isSome (hname : name ∈ names files) :
    (lookup files name).isSome := by
  rw [lookup]
  split_ifs with hdev
  · rfl
  · rw [Option.isSome_map, List.find?_isSome]
    obtain ⟨f, hf, rfl⟩ :=
      List.mem_map.mp ((List.mem_cons.mp hname).resolve_left hdev)
    exact ⟨f, hf, decide_eq_true rfl⟩

theorem length_of_mem_names (hname : name ∈ names files) :
    name.length < 128 := by
  rcases List.mem_cons.mp hname with rfl | hname
  · decide
  · obtain ⟨f, -, rfl⟩ := List.mem_map.mp hname
    have hlen := length_name f
    rw [length_text]
    omega

theorem Ready.note_settles (h : Ready link files s bs) {e : Entry} {p : ℕ}
    (hstands : Stands files s.fs (some e) p) :
    ∃ s', Settles (fun fuel =>
        if s.mem.load32 (p + VfsNode.flags) &&& 0x7 = vfsDirectory then
          print link fuel .dir [] s
        else
          print link fuel .file
            [BitVec.ofNat 32 (s.mem.load32 (p + VfsNode.length))] s) s' ∧
      Emits link.buffers e.note s s' := by
  cases hstands with
  | directory =>
      have hflags : s.mem.load32 (s.fs.dev + VfsNode.flags) = vfsDirectory :=
        h.mounted.dev.flags
      have hdir : vfsDirectory &&& 0x7 = vfsDirectory := by decide
      simp only [hflags, if_pos hdir]
      exact h.print_text_settles (by decide)
  | @file i f hf =>
      have hnode := (h.mounted.file i f hf).node
      have hflags : s.mem.load32 (s.fs.node i + VfsNode.flags) = vfsFile :=
        hnode.flags
      have hlength : s.mem.load32 (s.fs.node i + VfsNode.length) =
        f.content.length := hnode.length
      have hfile : ¬vfsFile &&& 0x7 = vfsDirectory := by decide
      simp only [hflags, hlength, if_neg hfile]
      obtain ⟨s', hprint, hemits⟩ :=
        h.print_settles (passes_number link s.mem _) (expand_file _)
      rw [← List.append_assoc] at hemits
      exact ⟨s', hprint, hemits⟩

/-- A line of the listing, for a name in the directory entry. -/
theorem Ready.printEntry_settles (h : Ready link files s bs)
    (hreads : (Str.ptr link.fs.dirent).Reads s.mem name)
    (hname : name ∈ names files) :
    ∃ s', Settles (printEntry link · link.fs.dirent s) s' ∧
      Emits link.buffers (listingLine files name) s s' := by
  have hentry : Set.Ico link.fs.dirent (link.fs.dirent + (name.length + 1)) ⊆
      link.entry := by
    have hlen := length_of_mem_names hname
    have hsize : Dirent.size = 132 := rfl
    exact Set.Ico_subset_Ico_right (by omega)
  have hapart := h.placed.entry_buffers.symm
  obtain ⟨s₁, hprint, hemits⟩ := h.print_settles
    (passes_string hreads h.placed.entry_lt (hapart.mono_right hentry))
    (expand_entry name)
  have h₁ := h.emits_scratch (hemits.mono Set.subset_union_left)
  have hreads₁ : (Str.ptr link.fs.dirent).Reads s₁.mem name :=
    hreads.congr hemits.same
      (hentry.trans (Set.subset_compl_iff_disjoint_left.mpr hapart))
  obtain ⟨p, hfind, hstands⟩ := finddir_settles h₁.mounted hreads₁
  obtain ⟨e, he⟩ := Option.isSome_iff_exists.mp (lookup_isSome hname)
  rw [he] at hstands
  obtain ⟨s₂, hnote, hemits'⟩ := h₁.note_settles hstands
  have hfind' : Settles (vfsFinddir · link.fs s₁.fsRoot
      (.ptr link.fs.dirent) s₁.fs) p := by
    rw [h₁.root]
    exact hfind
  refine ⟨s₂, hprint.bind (hfind'.bind hnote), ?_⟩
  rw [listingLine, he]
  exact hemits.trans hemits'

theorem emits_entry {m : Memory} (h : SameOn link.entryᶜ s.mem m) :
    Emits link.entry [] s (s.setFs { s.fs with mem := m }) :=
  ⟨m, m, s.ramdisk.loads, h, by
    rw [List.append_nil]
    rfl⟩

/-- What `vfs_readdir` puts into the directory entry. -/
theorem Ready.readdir_settles (h : Ready link files s bs)
    (hname : (names files)[i]? = some name) :
    ∃ fs, Settles (vfsReaddir · link.fs s.fsRoot i s.fs)
        (link.fs.dirent, fs) ∧
      Emits link.entry [] s (s.setFs fs) ∧
      (Str.ptr link.fs.dirent).Reads (s.setFs fs).mem name := by
  have hsteady : Steady (vfsReaddir · link.fs s.fs.root i s.fs) :=
    steady_vfsReaddir s.fs.root i
  rw [h.root]
  cases i with
  | zero =>
      obtain rfl := Option.some.inj hname
      obtain ⟨m, hreaddir, hentry, hsame⟩ :=
        h.mounted.readdir_zero_mem (le_refl 64)
      exact ⟨_, hsteady.settles hreaddir, emits_entry hsame, hentry.name⟩
  | succ i =>
      rw [names, List.getElem?_cons_succ, List.getElem?_map] at hname
      obtain ⟨f, hf, rfl⟩ := Option.map_eq_some_iff.mp hname
      obtain ⟨m, hreaddir, hentry, hsame⟩ :=
        h.mounted.readdir_succ_mem (le_refl 64) hf
      exact ⟨_, hsteady.settles hreaddir, emits_entry hsame, hentry.name⟩

theorem Ready.list_from (h : Ready link files s bs) {rest : List (List UInt8)}
    (hi : i ≤ (names files).length) (hrest : (names files).drop i = rest) :
    ∃ s' bound, (∀ fuel rounds, bound ≤ fuel → rest.length < rounds →
        list link fuel rounds i s = some s') ∧
      Emits link.scratch (rest.flatMap (listingLine files)) s s' := by
  induction rest generalizing i s with
  | nil =>
      have hlength := List.drop_eq_nil_iff.mp hrest
      rw [names, List.length_cons, List.length_map] at hi hlength
      have hcount := h.mounted.layout.count_lt
      refine ⟨s.setFs s.fs, 0, fun fuel rounds _ hrounds => ?_, s.mem, s.mem,
        s.ramdisk.loads, SameOn.refl _ _, ?_⟩
      · obtain ⟨rounds, rfl⟩ := Nat.exists_eq_add_of_le' hrounds
        have hreaddir : vfsReaddir fuel link.fs s.fsRoot i s.fs =
            some (0, s.fs) := by
          rw [h.root]
          exact h.mounted.readdir_end (by omega) (by omega)
        simp only [list, Option.bind_eq_bind, hreaddir, Option.bind_some,
          ne_eq, not_true, if_false]
      · rw [List.flatMap_nil, List.append_nil]
        rfl
  | cons name rest ih =>
      have hname : (names files)[i]? = some name := by
        rw [← List.head?_drop, hrest]
        rfl
      have hmem := List.mem_of_getElem? hname
      have hlt := (List.getElem?_eq_some_iff.mp hname).1
      obtain ⟨fs, ⟨bound₁, hreaddir⟩, hentry, hreads⟩ := h.readdir_settles hname
      have hentry := hentry.mono (T := link.scratch) Set.subset_union_right
      have h₁ := h.emits_scratch hentry
      obtain ⟨s₂, ⟨bound₂, hline⟩, hemits⟩ :=
        h₁.printEntry_settles hreads hmem
      have hemits := hemits.mono (T := link.scratch) Set.subset_union_left
      have hdrop : (names files).drop (i + 1) = rest := by
        rw [← List.tail_drop, hrest]
        rfl
      obtain ⟨s', bound₃, hlist, hemits'⟩ :=
        ih (h₁.emits_scratch hemits) hlt hdrop
      refine ⟨s', max bound₁ (max bound₂ bound₃), fun fuel rounds hfuel hrounds =>
        ?_, ?_⟩
      · obtain ⟨rounds, rfl⟩ :=
          Nat.exists_eq_add_of_le' (Nat.one_le_of_lt hrounds)
        have hpos := link.fs.dirent_pos.ne'
        rw [max_le_iff, max_le_iff] at hfuel
        simp only [list, Option.bind_eq_bind, hreaddir fuel hfuel.1,
          Option.bind_some, if_pos hpos, hline fuel hfuel.2.1]
        exact hlist fuel rounds hfuel.2.2 (Nat.lt_of_succ_lt_succ hrounds)
      · rw [List.flatMap_cons]
        exact (hentry.trans hemits).trans hemits'

theorem Ready.list_settles (h : Ready link files s bs) :
    ∃ s', Settles (fun fuel => list link fuel fuel 0 s) s' ∧
      Emits link.scratch (listing files) s s' := by
  obtain ⟨s', bound, hlist, hemits⟩ := h.list_from (Nat.zero_le _) rfl
  refine ⟨s', ⟨max bound ((names files).length + 1), fun fuel hfuel => ?_⟩,
    hemits⟩
  rw [max_le_iff] at hfuel
  exact hlist fuel fuel hfuel.1 hfuel.2

end Listing

end BabOs.Shell
