import BabOs.Kheap.Gifts
import BabOs.Shell.Layout

/-!
# From the image to the shell

`kmain` sets up the heap, and `initialise_initrd` takes the nodes of the ramdisk
from it.  On a stack from the same heap, the shell is then ready for its first
command.
-/

namespace BabOs.Shell

open Memory Initrd Kheap Blocks

/-! ## The start of the system -/

/-- The address that `kmain` passes to `initialise_initrd`. -/
def initrdLocation : ℕ := 0xC0040000

/-- The size of the stack that `task_create` asks for. -/
def stackSize : ℕ := 4096

section Start

variable {σ : Type} (mapPage : σ → ℕ → σ)

/-- What `kmalloc` does to the memory, as long as the heap does not grow.  A call
that makes it grow gets `0` here; the files are few enough that none does. -/
def onHeap (fuel : ℕ) (heap : Kheap.State σ) : Kmalloc := fun size m =>
  match Kheap.kmalloc mapPage fuel size { heap with mem := m } with
  | some (ptr, heap') =>
      if heap'.heapEnd = heap.heapEnd then (ptr, heap'.mem) else (0, m)
  | none => (0, m)

/-- `kheap_init` and `initialise_initrd`, as `kmain` calls them. -/
def kmain (fs : Initrd.Link) (fuel : ℕ) (s : State σ) : Option (State σ) := do
  let heap := Kheap.kheapInit mapPage s.heap
  let (root, ramdisk) ← initialiseInitrd fuel fs (onHeap mapPage fuel heap)
    initrdLocation heap.mem
  some { s with
    heap := { heap with mem := ramdisk.mem }
    ramdisk := ramdisk
    fsRoot := root }

end Start

/-- The addresses of a task, whose variables lie at the given offsets in its
stack. -/
def Link.onStack (link : Link) (stack : ℕ) : Link where
  fs := link.fs
  literal := link.literal
  cmdBuffer := stack + link.cmdBuffer
  decimal := stack + link.decimal
  hex := stack + link.hex
  behind := link.behind

/-- The variables have their places in the stack. -/
structure Link.Locals (link : Link) : Prop where
  line : link.cmdBuffer + 128 ≤ stackSize
  decimal : link.decimal + 32 ≤ stackSize
  hex : link.hex + 32 ≤ stackSize
  apart : Disjoint link.line link.buffers

section OnStack

variable {stack x : ℕ}

theorem Link.mem_line_onStack (link : Link) :
    stack + x ∈ (link.onStack stack).line ↔ x ∈ link.line := by
  simp only [Link.line, Link.onStack, Set.mem_Ico]
  omega

theorem Link.mem_buffers_onStack (link : Link) :
    stack + x ∈ (link.onStack stack).buffers ↔ x ∈ link.buffers := by
  simp only [Link.buffers, Link.onStack, Set.mem_union, Set.mem_Ico]
  omega

end OnStack

/-- The kernel and an image are in memory, below the heap.  The nodes of the files
and a stack fit in the first megabyte of the heap: there are at most 5673 files. -/
structure Loaded (link : Link) (files : List File) (image : List UInt8)
    (m : Memory) : Prop where
  packed : mkinitrd files = some image
  loaded : Holds m initrdLocation image
  image_le : initrdLocation + image.length ≤ kheapStart
  nodes : VfsNode.size * (files.length + 2) + stackSize + 8 * headerSize ≤
    kheapInitialSize - headerSize
  constant : ∀ l : Literal, (Str.ptr (link.literal l)).Reads m l.text
  constants_below : link.constants ⊆ below
  entry_below : link.entry ⊆ below
  image_constants : Disjoint link.constants
    (Set.Ico initrdLocation (initrdLocation + image.length))
  image_entry : Disjoint (Set.Ico initrdLocation (initrdLocation + image.length))
    link.entry
  constants_entry : Disjoint link.constants link.entry

/-! ## The ramdisk on the heap -/

/-- The heap stays in order, and what is in use is kept. -/
def Keeping {σ : Type} (heap : Kheap.State σ) (n k : ℕ) (used : Set ℕ)
    (m : Memory) : Prop :=
  ∃ bs, HeapOk { heap with mem := m } bs ∧ used ⊆ kept bs ∧
    hasRoom bs n = true ∧ bs.length ≤ k

section OnHeap

variable {σ : Type} {mapPage : σ → ℕ → σ} {heap : Kheap.State σ} {m : Memory}
variable {bs : List Blk} {used : Set ℕ} {sizes : List ℕ} {n fuel : ℕ}

theorem onHeap_servesTo (h : HeapOk { heap with mem := m } bs)
    (hused : used ⊆ kept bs) (hpos : ∀ size ∈ sizes, 0 < size)
    (hroom : hasRoom bs ((sizes.map (· + 2 * headerSize)).sum + n) = true)
    (hfuel : bs.length + sizes.length ≤ fuel) :
    (onHeap mapPage fuel heap).ServesTo
      (Keeping heap n (bs.length + sizes.length)) sizes used m := by
  generalize hk : bs.length + sizes.length = k at hfuel ⊢
  replace hk := hk.le
  induction sizes generalizing used m bs with
  | nil =>
      rw [List.map_nil, List.sum_nil, Nat.zero_add] at hroom
      exact ⟨bs, h, hused, hroom, hk⟩
  | cons size sizes ih =>
      rw [List.forall_mem_cons] at hpos
      rw [List.map_cons, List.sum_cons, Nat.add_assoc] at hroom
      rw [List.length_cons] at hk
      obtain ⟨ptr, s₁, bs₁, hcall, hgives⟩ :=
        h.kmalloc_gives hpos.1 hroom (by omega : bs.length ≤ fuel) mapPage
      have hframe := hgives.frame
      have honHeap : onHeap mapPage fuel heap size m = (ptr, s₁.mem) := by
        rw [onHeap, hcall]
        dsimp only
        rw [if_pos (by rw [hframe])]
      have hlength := hgives.length_le
      have hend := hgives.end_lt
      have hsubset : used ∪ Set.Ico ptr (ptr + size) ⊆
          Set.Ico ptr (ptr + size) ∪ kept bs :=
        Set.union_subset (hused.trans Set.subset_union_right)
          Set.subset_union_left
      simp only [Kmalloc.ServesTo, honHeap]
      refine ⟨hgives.pos, hend.le, (hgives.apart.mono_left hused).symm,
        hgives.same.mono hused, fun m' hm' => ?_⟩
      have hwritten := hgives.written m'
        (hm'.mono (Set.compl_subset_compl.mpr hsubset))
      have hstate : ({ s₁ with mem := m' } : Kheap.State σ) =
          { heap with mem := m' } := by
        rw [hframe]
      rw [hstate] at hwritten
      exact ih hwritten (hsubset.trans hgives.kept_subset) hpos.2 hgives.room
        (by omega)

end OnHeap

/-- The ramdisk is mounted, and the heap has room for a stack. -/
structure Mounts {σ : Type} (link : Link) (files : List File)
    (s s₁ : State σ) (bs : List Blk) : Prop where
  heap : HeapOk s₁.heap bs
  heapEnd : s₁.heap.heapEnd = kheapStart + kheapInitialSize
  room : hasRoom bs (stackSize + 2 * headerSize + 0) = true
  length_le : bs.length ≤ 4
  mounted : Mounted link.fs files s₁.fs
  header : s₁.ramdisk.header = initrdLocation
  root : s₁.fsRoot = s₁.ramdisk.root
  region : s₁.ramdisk.region (imageSize files) files.length ⊆ kept bs
  constant : ∀ l : Literal, (Str.ptr (link.literal l)).Reads s₁.mem l.text
  output : s₁.output = s.output

section Mounting

variable {σ : Type} {mapPage : σ → ℕ → σ} {link : Link} {files : List File}
variable {image : List UInt8} {s s₁ : State σ} {bs : List Blk} {fuel : ℕ}

theorem sameOn_kheapInit (mapPage : σ → ℕ → σ) (heap : Kheap.State σ) :
    SameOn below heap.mem (kheapInit mapPage heap).mem := by
  have hlogs : heap.mem.Logs (kheapInit mapPage heap).mem :=
    ((((Logs.refl heap.mem).store32.store8).store32).store32).store32
  have hstart := headerOutside_below (le_refl kheapStart)
  refine hlogs.sameOn ?_
  exact hstart.setPrev (hstart.setNext (hstart.setSize (hstart.setIsHole
    (hstart.setMagic (WritesOutside.refl _ _)))))

/-- What the packer puts into an image, it puts below the heap. -/
theorem Loaded.image_below (h : Loaded link files image s.mem) :
    Set.Ico initrdLocation (initrdLocation + image.length) ⊆ below :=
  fun _ ha => Nat.lt_of_lt_of_le ha.2 h.image_le

theorem Loaded.kmain_mounts (h : Loaded link files image s.mem)
    (hfuel : 64 ≤ fuel) (hrounds : files.length < fuel) (mapPage : σ → ℕ → σ) :
    ∃ s₁ bs, kmain mapPage link.fs fuel s = some s₁ ∧
      Mounts link files s s₁ bs := by
  obtain ⟨heap, hinit⟩ : ∃ heap, kheapInit mapPage s.heap = heap := ⟨_, rfl⟩
  have hok := heapOk_kheapInit mapPage s.heap
  have hlow := sameOn_kheapInit mapPage s.heap
  have hend : (kheapInit mapPage s.heap).heapEnd =
    kheapStart + kheapInitialSize := rfl
  rw [hinit] at hok hlow hend
  have himage := h.image_le
  have hnodes := h.nodes
  have hsize : VfsNode.size = 184 := rfl
  have hsizes : stackSize = 4096 ∧ headerSize = 20 ∧
    kheapStart = 0xD0000000 ∧ kheapInitialSize = 0x100000 :=
      ⟨rfl, rfl, rfl, rfl⟩
  rw [hsize] at hnodes
  have hfiles := List.length_pos_iff.mpr (mkinitrd_eq_some_iff.mp h.packed).1
  have hserves := @onHeap_servesTo σ mapPage heap heap.mem _ below
    [VfsNode.size, VfsNode.size, VfsNode.size * files.length]
    (stackSize + 2 * headerSize + 0) fuel hok Set.subset_union_right
    (by
      simp only [List.forall_mem_cons, List.not_mem_nil, false_imp_iff,
        implies_true, and_true, hsize]
      omega)
    (by
      rw [hasRoom_iff_exists]
      refine ⟨_, List.mem_singleton_self _, rfl, ?_⟩
      simp only [List.map_cons, List.map_nil, List.sum_cons, List.sum_nil, hsize]
      omega)
    (by
      simp only [List.length_cons, List.length_nil]
      omega)
  have hready : Initrd.Ready link.fs (onHeap mapPage fuel heap) files image
      initrdLocation below heap.mem := by
    refine ⟨h.packed, h.loaded.congr hlow h.image_below, ?_, ?_, hserves.serves,
      h.image_below, h.entry_below, h.image_entry⟩
    · omega
    · rw [hsize]
      omega
  obtain ⟨ramdisk, used', hmount, hheader, hmounted, ⟨bs, hheap, hkept, hroom,
    hlength⟩, -, hregion, hsame⟩ :=
      initialiseInitrd_servesTo hfuel hrounds hready hserves
  refine ⟨{ s with
      heap := { heap with mem := ramdisk.mem }
      ramdisk := ramdisk
      fsRoot := ramdisk.root }, bs, ?_, hheap, hend, hroom, hlength, hmounted,
    hheader, rfl, hregion.trans hkept, fun l => ?_, rfl⟩
  · simp only [kmain, hinit, hmount, Option.bind_eq_bind, Option.bind_some]
  · refine ((h.constant l).congr hlow ?_).congr hsame ?_
    · exact (link.literal_subset_constants l).trans h.constants_below
    · intro a ha
      have hin := link.literal_subset_constants l ha
      exact ⟨h.constants_below hin,
        fun hout => Set.disjoint_left.mp h.image_constants hin hout⟩

theorem sum_sizes (files : List File) : ((sizes files).map (· + 4115)).sum =
    4116 + (files.map fun f => f.content.length).sum + 4116 * files.length := by
  rw [sizes, List.map_cons, List.sum_cons]
  induction files with
  | nil => rfl
  | cons f files ih =>
      simp only [List.map_cons, List.sum_cons, List.length_cons] at ih ⊢
      omega

/-- Reading all files leaves the heap in the address space. -/
theorem Loaded.grownEnd_lt {m : Memory} (h : Loaded link files image m)
    (bs : List Blk) :
    grownEnd (sizes files) (kheapStart + kheapInitialSize) bs < 2 ^ 32 := by
  have hlength := length_image h.packed
  have himage := h.image_le
  have hnodes := h.nodes
  have hsize : VfsNode.size = 184 := rfl
  have hsizes : stackSize = 4096 ∧ headerSize = 20 ∧ initrdLocation = 0xC0040000 ∧
    kheapStart = 0xD0000000 ∧ kheapInitialSize = 0x100000 :=
      ⟨rfl, rfl, rfl, rfl, rfl⟩
  rw [hsize] at hnodes
  have hgrowth : ∀ n ∈ sizes files, growth n false ≤ n + 4115 := by
    intro n _
    have hexpand : expandSize n false = n + 20 := rfl
    rw [growth, hexpand, pageSize]
    omega
  have hfilter : (((sizes files).filter fun n => !hasRoom bs n).map
      (growth · false)).sum ≤ ((sizes files).map (growth · false)).sum :=
    List.Sublist.sum_le_sum (List.filter_sublist.map _) (by simp)
  have hsum : ((sizes files).map (growth · false)).sum ≤
      ((sizes files).map (· + 4115)).sum := List.sum_le_sum hgrowth
  have htotal := sum_sizes files
  rw [offsetFrom, List.take_length] at hlength
  rw [grownEnd]
  omega

theorem Mounts.ready (h : Mounts link files s s₁ bs)
    (hloaded : Loaded link files image s.mem) (hlocals : link.Locals)
    (hfuel : 64 ≤ fuel) (mapPage : σ → ℕ → σ) :
    ∃ stack heap bs',
      Kheap.kmalloc mapPage fuel stackSize s₁.heap = some (stack, heap) ∧
        ∀ m, SameOn (Set.Ico stack (stack + stackSize))ᶜ heap.mem m →
          Ready (link.onStack stack) files
            { s₁ with heap := { heap with mem := m } } bs' := by
  have hlength := h.length_le
  obtain ⟨stack, heap, bs', hcall, hgives⟩ := h.heap.kmalloc_gives
    (show 0 < stackSize by decide) h.room (by omega : bs.length ≤ fuel) mapPage
  refine ⟨stack, heap, bs', hcall, fun m hm => ?_⟩
  have hkept : kept bs ⊆ kept bs' :=
    Set.subset_union_right.trans hgives.kept_subset
  have hblock : Set.Ico stack (stack + stackSize) ⊆ kept bs' :=
    Set.subset_union_left.trans hgives.kept_subset
  have hconstants : link.constants ⊆ kept bs :=
    hloaded.constants_below.trans Set.subset_union_right
  have hentry : link.entry ⊆ kept bs :=
    hloaded.entry_below.trans Set.subset_union_right
  have hfixed : (link.onStack stack).fixed files s₁.ramdisk ⊆ kept bs :=
    Set.union_subset h.region hconstants
  have hend := hgives.end_lt
  have hcmd := hlocals.line
  have hline : (link.onStack stack).line ⊆ Set.Ico stack (stack + stackSize) :=
    Set.Ico_subset_Ico (Nat.le_add_right _ _)
      (show stack + link.cmdBuffer + 128 ≤ _ by omega)
  have hbuffers : (link.onStack stack).buffers ⊆
      Set.Ico stack (stack + stackSize) := by
    have hdecimal := hlocals.decimal
    have hhex := hlocals.hex
    apply Set.union_subset
    · exact Set.Ico_subset_Ico (Nat.le_add_right _ _)
        (show stack + link.decimal + 32 ≤ _ by omega)
    · exact Set.Ico_subset_Ico (Nat.le_add_right _ _)
        (show stack + link.hex + 32 ≤ _ by omega)
  have hsame : SameOn (kept bs) s₁.mem m := hgives.same.trans
    (hm.mono (Set.subset_compl_iff_disjoint_right.mpr hgives.apart))
  refine ⟨⟨hfixed.trans hkept, hline.trans hblock,
    Set.union_subset (hbuffers.trans hblock) (hentry.trans hkept),
    hgives.apart.mono hfixed hline, ?_, ?_, hgives.apart.mono hentry hbuffers,
    show stack + link.cmdBuffer + 128 ≤ 2 ^ 32 by omega, ?_⟩,
    hgives.written m (hm.mono (Set.compl_subset_compl.mpr Set.subset_union_left)),
    ?_, h.mounted.keeps ⟨m, s₁.ramdisk.loads, rfl, hsame.mono h.region⟩, h.root,
    fun l => (h.constant l).congr hsame
      ((link.literal_subset_constants l).trans hconstants)⟩
  · refine Set.disjoint_union_right.mpr ⟨hgives.apart.mono hfixed hbuffers, ?_⟩
    exact Set.disjoint_union_left.mpr
      ⟨h.mounted.dirent, hloaded.constants_entry⟩
  · refine Set.disjoint_left.mpr fun a hline hin => ?_
    obtain ⟨x, rfl⟩ := Nat.exists_eq_add_of_le
      ((Nat.le_add_right stack _).trans hline.1)
    exact Set.disjoint_left.mp hlocals.apart (link.mem_line_onStack.mp hline)
      (link.mem_buffers_onStack.mp hin)
  · exact Nat.lt_trans (hloaded.entry_below (Set.left_mem_Ico.mpr
      (Nat.lt_add_of_pos_right (by decide)))) (by decide)
  · have hheapEnd : heap.heapEnd = kheapStart + kheapInitialSize := by
      rw [hgives.frame, ← h.heapEnd]
    rw [hheapEnd]
    exact hloaded.grownEnd_lt bs'

end Mounting

/-! ## A kernel in memory -/

/-- The string constants lie 64 kibibytes apart from each other. -/
def lowLiterals : Link where
  fs := lowLink
  literal := fun l => 0x10000 * (l.ctorIdx + 1)
  cmdBuffer := 0
  decimal := 128
  hex := 160
  behind := fun _ => 0

/-- The string constants, and an image where `kmain` expects it. -/
def kernelMemory (image : List UInt8) : Memory where
  byte := fun a =>
    if a < initrdLocation then
      (match [Literal.banner, .ls, .entry, .dir, .file, .cat, .content,
        .notFound, .unknown, .prompt][a / 0x10000 - 1]? with
      | some l => l.text
      | none => []).getD (a % 0x10000) 0
    else image.getD (a - initrdLocation) 0
  stores := []

/-- A kernel that has not run yet. -/
def loadedState (image : List UInt8) : State Unit where
  heap := { blankState with mem := kernelMemory image }
  ramdisk := ⟨kernelMemory image, 0, 0, 0, 0, 0, 0, []⟩
  fsRoot := 0
  cmdIdx := 0
  output := []

theorem Literal.length_text (l : Literal) : l.text.length ≤ 80 := by
  cases l <;> decide

theorem Literal.ctorIdx_le (l : Literal) : l.ctorIdx ≤ 9 := by
  cases l <;> decide

theorem kernelMemory_literal (image : List UInt8) (l : Literal) :
    (Str.ptr (lowLiterals.literal l)).Reads (kernelMemory image) l.text := by
  constructor
  · intro i hi
    have hlength := l.length_text
    have hidx := l.ctorIdx_le
    have hdiv : (0x10000 * (l.ctorIdx + 1) + i) / 0x10000 - 1 = l.ctorIdx := by
      omega
    have hmod : (0x10000 * (l.ctorIdx + 1) + i) % 0x10000 = i := by omega
    have hlow : 0x10000 * (l.ctorIdx + 1) + i < initrdLocation := by
      rw [initrdLocation]
      omega
    change (kernelMemory image).byte (0x10000 * (l.ctorIdx + 1) + i) = _
    rw [kernelMemory]
    dsimp only
    rw [if_pos hlow, hdiv, hmod]
    cases l <;> rfl
  · cases l <;> decide

theorem lowLiterals_constants_subset :
    lowLiterals.constants ⊆ Set.Ico 0x10000 0x100000 := by
  refine Set.iUnion_subset fun l => ?_
  have hlength := l.length_text
  have hidx := l.ctorIdx_le
  exact Set.Ico_subset_Ico
    (show 0x10000 ≤ 0x10000 * (l.ctorIdx + 1) by omega)
    (show 0x10000 * (l.ctorIdx + 1) + (l.text.length + 1) ≤ 0x100000 by omega)

theorem exists_loaded_twoFiles :
    ∃ image, Loaded lowLiterals twoFiles image (loadedState image).mem := by
  obtain ⟨image, hready⟩ := exists_ready_twoFiles
  have hlength := length_image hready.packed
  have hsize : offsetFrom (4 + twoFiles.length * 76) twoFiles
      twoFiles.length = 158 := by decide
  rw [hsize] at hlength
  have hentry : lowLiterals.entry = Set.Ico 0x1000 0x1084 := rfl
  have himage : initrdLocation + image.length = 0xC004009E := by
    rw [hlength]
    rfl
  refine ⟨image, hready.packed, fun i hi => ?_, ?_, by decide,
    kernelMemory_literal image, ?_, ?_, ?_, ?_, ?_⟩
  · change (kernelMemory image).byte (initrdLocation + i) = _
    rw [kernelMemory]
    dsimp only
    rw [if_neg (Nat.not_lt.mpr (Nat.le_add_right _ _)), Nat.add_sub_cancel_left,
      List.getD_eq_getElem _ _ hi]
  · rw [himage]
    decide
  · exact lowLiterals_constants_subset.trans fun a ha => ha.2.trans (by decide)
  · rw [hentry]
    exact fun a ha => ha.2.trans (by decide)
  · refine Set.disjoint_left.mpr fun a ha hin => ?_
    exact absurd (lowLiterals_constants_subset ha).2
      (not_lt.mpr (le_trans (by decide) hin.1))
  · rw [hentry]
    refine Set.disjoint_left.mpr fun a ha hin => ?_
    exact absurd hin.2 (not_lt.mpr (le_trans (by decide) ha.1))
  · rw [hentry]
    refine Set.disjoint_left.mpr fun a ha hin => ?_
    exact absurd hin.2
      (not_lt.mpr (le_trans (by decide) (lowLiterals_constants_subset ha).1))

theorem lowLiterals_locals : lowLiterals.Locals := by
  refine ⟨by decide, by decide, by decide, ?_⟩
  refine Set.disjoint_left.mpr fun a hline hin => ?_
  have hlt : a < 128 := hline.2
  rcases hin with hin | hin
  · exact absurd hlt (not_lt.mpr hin.1)
  · exact absurd hlt (not_lt.mpr (le_trans (by decide) hin.1))

end BabOs.Shell
