import BabOs.Initrd.Lookup

/-!
# Reading files

`vfs_read` on a file of a mounted ramdisk.  The test that clips a read adds the
offset and the size in 32 bits, so that it only does so while the sum fits.
-/

namespace BabOs.Initrd

open Memory

/-! ## One read -/

/-- The number of bytes that a read should give of a file of `length` bytes. -/
def clipped (length offset size : ℕ) : ℕ :=
  if offset ≤ length then min size (length - offset) else 0

/-- A buffer for `count` bytes, apart from the ramdisk. -/
structure Buffer (files : List File) (s : State) (buf count : ℕ) : Prop where
  le : buf + count ≤ 2 ^ 32
  apart : Disjoint (s.region (imageSize files) files.length)
    (Set.Ico buf (buf + count))

/-- A read is clipped to the content of the file: it returns the right count,
copies the right bytes, and touches no others. -/
def ReadsClipped (link : Link) (files : List File) (s : State) (i : ℕ)
    (f : File) (offset size buf : ℕ) : Prop :=
  ∃ s', vfsRead link (s.node i) offset size buf s =
      some (clipped f.content.length offset size, s') ∧
    Holds s'.mem buf
      ((f.content.drop offset).take (clipped f.content.length offset size)) ∧
    SameOn (Set.Ico buf (buf + clipped f.content.length offset size))ᶜ
      s.mem s'.mem ∧
    WritesOutside (Set.Ico buf (buf + clipped f.content.length offset size))ᶜ
      s.mem s'.mem ∧
    (∃ l, s'.loads = l ++ s.loads ∧ ∀ x ∈ l,
      Set.Ico x.1 (x.1 + x.2) ⊆
        Set.Ico (s.header + offsetFrom (4 + files.length * 76) files i)
          (s.header + offsetFrom (4 + files.length * 76) files i +
            f.content.length)) ∧
    Keeps files s s'

section Read

variable {link : Link} {files : List File} {s : State} {f : File}
variable {i offset size buf : ℕ}

theorem Mounted.vfsRead_eq (h : Mounted link files s)
    (hf : files[i]? = some f) :
    vfsRead link (s.node i) offset size buf s =
      if f.content.length < offset then some (0, s)
      else
        let count :=
          if f.content.length < uint32 (offset + size) then
            sub32 f.content.length offset
          else size
        let src := uint32
          (s.header + offsetFrom (4 + files.length * 76) files i + offset)
        some (count, { s with
          mem := s.mem.copy buf src count
          loads := (src, count) :: s.loads }) := by
  obtain ⟨hnode, hoffset, hlength, -⟩ := h.file i f hf
  rw [vfsRead, hnode.read]
  dsimp only
  rw [if_neg link.read_pos.ne', if_pos rfl, initrdRead, hnode.inode]
  dsimp only
  rw [hoffset, hlength]
  split_ifs <;> rfl

theorem Mounted.content_bounds (h : Mounted link files s)
    (hf : files[i]? = some f) :
    s.header + offsetFrom (4 + files.length * 76) files i + f.content.length <
        2 ^ 32 ∧
      Set.Ico (s.header + offsetFrom (4 + files.length * 76) files i)
          (s.header + offsetFrom (4 + files.length * 76) files i +
            f.content.length) ⊆
        s.region (imageSize files) files.length := by
  obtain ⟨hlo, hhi⟩ := @offsetFrom_bounds f files (4 + files.length * 76) i hf
  have himage := h.layout.image_lt
  rw [← imageSize] at hhi
  constructor
  · omega
  · refine Set.Subset.trans ?_ Set.subset_union_left
    exact Set.Ico_subset_Ico (by omega) (by omega)

theorem Mounted.readsClipped (h : Mounted link files s)
    (hf : files[i]? = some f)
    (hbuf : Buffer files s buf (clipped f.content.length offset size))
    (hfits : f.content.length < offset ∨ offset + size < 2 ^ 32) :
    ReadsClipped link files s i f offset size buf := by
  obtain ⟨hlt, hregion⟩ := h.content_bounds hf
  rw [ReadsClipped, h.vfsRead_eq hf]
  by_cases hend : f.content.length < offset
  · rw [if_pos hend, clipped, if_neg (not_le.mpr hend)]
    exact ⟨s, rfl, holds_nil _ _, .refl _ _, .refl _ _, ⟨[], rfl, by simp⟩,
      .refl _ _⟩
  have hle : offset ≤ f.content.length := not_lt.mp hend
  have hsum : offset + size < 2 ^ 32 := hfits.resolve_left hend
  have hcount : (if f.content.length < uint32 (offset + size) then
      sub32 f.content.length offset else size) =
        clipped f.content.length offset size := by
    rw [clipped, if_pos hle, uint32_eq_of_lt hsum]
    split_ifs with hclip
    · rw [sub32_eq_of_le (by omega) hle]
      omega
    · omega
  rw [if_neg hend]
  dsimp only
  rw [hcount]
  set count := clipped f.content.length offset size with hdef
  have hmin : count ≤ f.content.length - offset := by
    rw [hdef, clipped, if_pos hle]
    exact Nat.min_le_right _ _
  rw [uint32_eq_of_lt (by omega)]
  have hsource : Set.Ico
      (s.header + offsetFrom (4 + files.length * 76) files i + offset)
      (s.header + offsetFrom (4 + files.length * 76) files i + offset + count) ⊆
        Set.Ico (s.header + offsetFrom (4 + files.length * 76) files i)
          (s.header + offsetFrom (4 + files.length * 76) files i +
            f.content.length) :=
    Set.Ico_subset_Ico (by omega) (by omega)
  refine ⟨_, rfl, ?_, ?_, ?_, ⟨[_], rfl, ?_⟩, ?_⟩
  · have hbytes := (h.file i f hf).content
    rw [← List.take_append_drop offset f.content, holds_append,
      List.length_take, Nat.min_eq_left hle] at hbytes
    have hpart := hbytes.2
    rw [← List.take_append_drop count (f.content.drop offset),
      holds_append] at hpart
    have hlen : ((f.content.drop offset).take count).length = count := by
      rw [List.length_take, List.length_drop]
      omega
    have hcopy := @Holds.copy _ buf _ _ hpart.1 (by
      rw [hlen]
      have hapart := Set.Ico_disjoint_Ico.mp
        (hbuf.apart.mono_left (hsource.trans hregion))
      omega)
    rwa [hlen] at hcopy
  · exact (SameOn.refl _ _).copy disjoint_compl_left
  · apply (WritesOutside.refl _ s.mem).copy
    exact disjoint_compl_right
  · rw [List.forall_mem_singleton]
    exact hsource
  · exact ⟨_, _, rfl, (SameOn.refl _ _).copy hbuf.apart⟩

theorem Mounted.not_readsClipped (h : Mounted link files s)
    (hf : files[i]? = some f) (hoffset : offset < 2 ^ 32)
    (hsize : size < 2 ^ 32) (hle : offset ≤ f.content.length)
    (hwrap : 2 ^ 32 ≤ offset + size) :
    ¬ReadsClipped link files s i f offset size buf := by
  obtain ⟨hlt, -⟩ := h.content_bounds hf
  rintro ⟨s', hread, -⟩
  rw [h.vfsRead_eq hf, if_neg (not_lt.mpr hle)] at hread
  dsimp only at hread
  have hsum : uint32 (offset + size) = offset + size - 2 ^ 32 := by
    rw [uint32]
    omega
  rw [hsum, if_neg (by omega)] at hread
  obtain ⟨hcount, -⟩ := Prod.mk.inj (Option.some.inj hread)
  rw [clipped, if_pos hle] at hcount
  omega

end Read

/-! ## Reading in chunks -/

/-- Reads in chunks of the sizes, one after the other into `buf`, until a read
gives nothing: whether that happened, and how much was read. -/
def readChunks (link : Link) (node buf : ℕ) :
    (sizes : List ℕ) → (offset : ℕ) → State → Option (Bool × ℕ × State)
  | [], offset, s => some (false, offset, s)
  | size :: sizes, offset, s =>
      (vfsRead link node offset size (buf + offset) s).bind fun (count, s) =>
        if count = 0 then some (true, offset, s)
        else readChunks link node buf sizes (offset + count) s

/-- No chunk of a file of `length` bytes ends past the address space. -/
def Fit (length : ℕ) : (offset : ℕ) → (sizes : List ℕ) → Prop
  | _, [] => True
  | offset, size :: sizes =>
      offset + size < 2 ^ 32 ∧ Fit length (min length (offset + size)) sizes

section Chunks

variable {link : Link} {files : List File} {s : State} {f : File}
variable {i offset buf : ℕ} {sizes : List ℕ}

theorem Buffer.mono {count start size : ℕ} (h : Buffer files s buf count)
    (hle : start + size ≤ count) : Buffer files s (buf + start) size := by
  have hlast := h.le
  constructor
  · omega
  · apply h.apart.mono_right
    exact Set.Ico_subset_Ico (by omega) (by omega)

theorem Keeps.buffer {s' : State} {count : ℕ} (h : Keeps files s s')
    (hbuf : Buffer files s buf count) : Buffer files s' buf count := by
  obtain ⟨mem, loads, rfl, -⟩ := h
  exact ⟨hbuf.le, hbuf.apart⟩

theorem Keeps.node {s' : State} (h : Keeps files s s') (i : ℕ) :
    s'.node i = s.node i := by
  obtain ⟨mem, loads, rfl, -⟩ := h
  rfl

theorem Mounted.readChunk (h : Mounted link files s) (hf : files[i]? = some f)
    (hbuf : Buffer files s buf f.content.length)
    (hoffset : offset ≤ f.content.length)
    (hread : Holds s.mem buf (f.content.take offset)) {size : ℕ}
    (hsize : offset + size < 2 ^ 32) :
    ∃ s', vfsRead link (s.node i) offset size (buf + offset) s =
        some (min size (f.content.length - offset), s') ∧
      Holds s'.mem buf
        (f.content.take (offset + min size (f.content.length - offset))) ∧
      Keeps files s s' := by
  have hclip : clipped f.content.length offset size =
      min size (f.content.length - offset) := if_pos hoffset
  have hle : offset + clipped f.content.length offset size ≤
      f.content.length := by
    rw [hclip]
    omega
  obtain ⟨s', hresult, hbytes, hsame, -, -, hkeeps⟩ :=
    h.readsClipped hf (hbuf.mono hle) (Or.inr hsize)
  rw [hclip] at hresult hbytes hsame
  refine ⟨s', hresult, ?_, hkeeps⟩
  have hlen : (f.content.take offset).length = offset := by
    rw [List.length_take, Nat.min_eq_left hoffset]
  rw [List.take_add, holds_append, hlen]
  refine ⟨fun k hk => ?_, hbytes⟩
  rw [hlen] at hk
  have hout : buf + k ∈ (Set.Ico (buf + offset)
      (buf + offset + min size (f.content.length - offset)))ᶜ := by
    rintro ⟨hlo, -⟩
    omega
  rw [← hread k (by rwa [hlen])]
  exact hsame _ hout

/-- Chunks of positive sizes give the file from its beginning, and all of it
when the last read gives nothing; enough chunks get there. -/
theorem Mounted.readChunks_spec (h : Mounted link files s)
    (hf : files[i]? = some f) (hbuf : Buffer files s buf f.content.length)
    (hoffset : offset ≤ f.content.length)
    (hread : Holds s.mem buf (f.content.take offset))
    (hpos : ∀ size ∈ sizes, 0 < size)
    (hfit : Fit f.content.length offset sizes) :
    ∃ finished total s',
      readChunks link (s.node i) buf sizes offset s =
          some (finished, total, s') ∧
        Holds s'.mem buf (f.content.take total) ∧ Keeps files s s' ∧
        (finished = true → total = f.content.length) ∧
        (f.content.length - offset < sizes.length → finished = true) := by
  induction sizes generalizing s offset with
  | nil =>
      refine ⟨false, offset, s, rfl, hread, .refl _ _, by simp, fun hlt => ?_⟩
      exact absurd hlt (Nat.not_lt_zero _)
  | cons size sizes ih =>
      rw [List.forall_mem_cons] at hpos
      obtain ⟨hsize, hrest⟩ := hfit
      obtain ⟨s₁, hresult, hread₁, hkeeps⟩ :=
        h.readChunk hf hbuf hoffset hread hsize
      rw [readChunks, hresult, Option.bind_some]
      dsimp only
      split_ifs with hzero
      · obtain rfl : offset = f.content.length := by omega
        exact ⟨true, _, s₁, rfl, by rwa [hzero] at hread₁, hkeeps, by simp,
          by simp⟩
      · have hnext : offset + min size (f.content.length - offset) =
            min f.content.length (offset + size) := by omega
        rw [hnext] at hread₁ ⊢
        obtain ⟨finished, total, s', hrun, hholds, hkeeps', hend, henough⟩ :=
          ih (h.keeps hkeeps) (hkeeps.buffer hbuf) (Nat.min_le_left _ _) hread₁
            hpos.2 hrest
        rw [hkeeps.node] at hrun
        refine ⟨finished, total, s', hrun, hholds, hkeeps.trans hkeeps', hend,
          fun hlt => henough ?_⟩
        rw [List.length_cons] at hlt
        omega

end Chunks

/-- Once a loaded image is mounted, a read is clipped to the content of the file
if and only if it starts behind the end or the sum of its offset and its size
fits in 32 bits; reads in chunks that fit give the content. -/
theorem initialiseInitrd_readsClipped_iff {link : Link} {kmalloc : Kmalloc}
    {files : List File} {image : List UInt8} {location fuel : ℕ}
    {used : Set ℕ} {m : Memory} (hfuel : 64 ≤ fuel)
    (hrounds : files.length < fuel)
    (hready : Ready link kmalloc files image location used m) :
    ∃ s, initialiseInitrd fuel link kmalloc location m = some (s.root, s) ∧
      ∀ s', Keeps files s s' → ∀ i f, files[i]? = some f →
        (∀ offset < 2 ^ 32, ∀ size < 2 ^ 32, ∀ buf,
          Buffer files s' buf (clipped f.content.length offset size) →
            (ReadsClipped link files s' i f offset size buf ↔
              f.content.length < offset ∨ offset + size < 2 ^ 32)) ∧
          ∀ buf, Buffer files s' buf f.content.length →
            ∀ sizes : List ℕ, (∀ size ∈ sizes, 0 < size) →
              Fit f.content.length 0 sizes →
                ∃ finished total s'',
                  readChunks link (s'.node i) buf sizes 0 s' =
                      some (finished, total, s'') ∧
                    (finished = true → total = f.content.length ∧
                      Holds s''.mem buf f.content) ∧
                    (f.content.length < sizes.length → finished = true) := by
  obtain ⟨s, hmount, -, hmounted⟩ := initialiseInitrd_mounted hfuel hrounds hready
  refine ⟨s, hmount, fun s' hkeeps i f hf => ?_⟩
  have hmounted' := hmounted.keeps hkeeps
  constructor
  · intro offset hoffset size hsize buf hbuf
    constructor
    · intro hclipped
      by_contra hwrap
      rw [not_or, not_lt, not_lt] at hwrap
      exact hmounted'.not_readsClipped hf hoffset hsize hwrap.1 hwrap.2 hclipped
    · exact hmounted'.readsClipped hf hbuf
  · intro buf hbuf sizes hpos hfit
    obtain ⟨finished, total, s'', hrun, hholds, -, hend, henough⟩ :=
      hmounted'.readChunks_spec hf hbuf (Nat.zero_le _) (holds_nil _ _) hpos hfit
    refine ⟨finished, total, s'', hrun, fun hfinished => ?_, henough⟩
    rw [hend hfinished, List.take_length] at hholds
    exact ⟨hend hfinished, hholds⟩

theorem initialiseInitrd_readsClipped_iff_twoFiles :
    ∃ image s, initialiseInitrd 64 lowLink bump 0x2000 (loadedAt image) =
        some (s.root, s) ∧
      ReadsClipped lowLink twoFiles s 0 smallFile 1 5 0x1000 ∧
      ReadsClipped lowLink twoFiles s 1 emptyFile 0 5 0x1000 := by
  obtain ⟨image, hready⟩ := exists_ready_twoFiles
  obtain ⟨s, hmount, hreads⟩ := initialiseInitrd_readsClipped_iff
    (show 64 ≤ 64 from le_rfl) (by decide) hready
  obtain ⟨s', hmount', -, hmounted⟩ := initialiseInitrd_mounted
    (show 64 ≤ 64 from le_rfl) (by decide) hready
  obtain ⟨-, rfl⟩ := Prod.mk.inj (Option.some.inj (hmount.symm.trans hmount'))
  have hbuf : ∀ n ≤ 1, Buffer twoFiles s 0x1000 n := by
    intro n hn
    constructor
    · omega
    · refine hmounted.dirent.mono_right (Set.Ico_subset_Ico_right ?_)
      change 0x1000 + n ≤ 0x1084
      omega
  refine ⟨image, s, hmount, ?_, ?_⟩
  · exact ((hreads s (.refl _ _) 0 smallFile rfl).1 1 (by norm_num) 5
      (by norm_num) 0x1000 (hbuf _ (by decide))).mpr (Or.inr (by norm_num))
  · exact ((hreads s (.refl _ _) 1 emptyFile rfl).1 0 (by norm_num) 5
      (by norm_num) 0x1000 (hbuf _ (by decide))).mpr (Or.inr (by norm_num))

/-- A read of `0xFFFFFFFF` bytes from the second byte on is not clipped to the
one byte that is left. -/
theorem not_readsClipped_smallFile :
    ∃ image s, mkinitrd [smallFile] = some image ∧
      initialiseInitrd 64 lowLink bump 0x2000 (loadedAt image) =
        some (s.root, s) ∧
      ∀ buf, ¬ReadsClipped lowLink [smallFile] s 0 smallFile 1 0xFFFFFFFF buf := by
  obtain ⟨image, hready⟩ := exists_ready_smallFile
  obtain ⟨s, hmount, -, hmounted⟩ := initialiseInitrd_mounted
    (show 64 ≤ 64 from le_rfl) (by decide) hready
  refine ⟨image, s, hready.packed, hmount, fun buf => ?_⟩
  exact hmounted.not_readsClipped rfl (by norm_num) (by norm_num) (by decide)
    (by norm_num)

end BabOs.Initrd
