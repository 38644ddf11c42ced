import BabOs.Initrd.Lookup
import BabOs.Kheap.Loans
import BabOs.Shell.Session

/-!
# Where the shell works

The ramdisk, the string constants, the line and the scratch memory of the calls
lie apart from each other, in blocks that the heap has handed out or below the
heap.  This is enough for the shell to be ready for the next command.
-/

namespace BabOs.Shell

open Memory Initrd Kheap Blocks

/-! ## Areas -/

def Link.constants (link : Link) : Set ℕ :=
  ⋃ l : Literal, Set.Ico (link.literal l)
    (link.literal l + (l.text.length + 1))

theorem Link.literal_subset_constants (link : Link) (l : Literal) :
    Set.Ico (link.literal l) (link.literal l + (l.text.length + 1)) ⊆
      link.constants :=
  Set.subset_iUnion (fun l : Literal => Set.Ico (link.literal l)
    (link.literal l + (l.text.length + 1))) l

/-- The bytes of `cmd_buffer`. -/
def Link.line (link : Link) : Set ℕ :=
  Set.Ico link.cmdBuffer (link.cmdBuffer + 128)

/-- The bytes of the directory entry that `vfs_readdir` returns. -/
def Link.entry (link : Link) : Set ℕ :=
  Set.Ico link.fs.dirent (link.fs.dirent + Dirent.size)

def Link.buffers (link : Link) : Set ℕ :=
  Set.Ico link.decimal (link.decimal + 32) ∪ Set.Ico link.hex (link.hex + 32)

/-- The bytes that the commands write, apart from those on loan. -/
def Link.scratch (link : Link) : Set ℕ := link.buffers ∪ link.entry

/-- The bytes that stay as they are. -/
def Link.fixed (link : Link) (files : List File) (ramdisk : Initrd.State) :
    Set ℕ :=
  ramdisk.region (imageSize files) files.length ∪ link.constants

/-- The areas lie apart, and the heap does not touch them. -/
structure Placed (link : Link) (files : List File) (ramdisk : Initrd.State)
    (bs : List Blk) : Prop where
  fixed_kept : link.fixed files ramdisk ⊆ kept bs
  line_kept : link.line ⊆ kept bs
  scratch_kept : link.scratch ⊆ kept bs
  fixed_line : Disjoint (link.fixed files ramdisk) link.line
  fixed_scratch : Disjoint (link.fixed files ramdisk) link.scratch
  line_buffers : Disjoint link.line link.buffers
  entry_buffers : Disjoint link.entry link.buffers
  line_le : link.cmdBuffer + 128 ≤ 2 ^ 32
  entry_lt : link.fs.dirent < 2 ^ 32

/-- What `cat` may ask the heap for. -/
def sizes (files : List File) : List ℕ :=
  1 :: files.map fun f => f.content.length + 1

structure Ready {σ : Type} (link : Link) (files : List File) (s : State σ)
    (bs : List Blk) : Prop where
  placed : Placed link files s.ramdisk bs
  heap : HeapOk s.heap bs
  room : grownEnd (sizes files) s.heap.heapEnd bs < 2 ^ 32
  mounted : Mounted link.fs files s.fs
  root : s.fsRoot = s.ramdisk.root
  constant : ∀ l : Literal, (Str.ptr (link.literal l)).Reads s.mem l.text

/-! ## Output -/

/-- `s'` is `s` after the output of `text`; in memory, only bytes of `S` may
have changed. -/
def Emits {σ : Type} (S : Set ℕ) (text : List UInt8) (s s' : State σ) : Prop :=
  ∃ m mem loads, SameOn Sᶜ s.mem m ∧
    s' = { s with
      heap := { s.heap with mem := m }
      ramdisk := { s.ramdisk with mem := mem, loads := loads }
      output := s.output ++ text }

section Emits

variable {σ : Type} {S T : Set ℕ} {text text' : List UInt8}
variable {s s' s'' : State σ} {link : Link} {files : List File}
variable {bs bs' : List Blk}

theorem Emits.refl (S : Set ℕ) (s : State σ) : Emits S [] s s :=
  ⟨s.mem, s.ramdisk.mem, s.ramdisk.loads, SameOn.refl _ _, by
    rw [List.append_nil]
    rfl⟩

theorem Emits.trans (h : Emits S text s s') (h' : Emits S text' s' s'') :
    Emits S (text ++ text') s s'' := by
  obtain ⟨m, mem, loads, hsame, rfl⟩ := h
  obtain ⟨m', mem', loads', hsame', rfl⟩ := h'
  exact ⟨m', mem', loads', hsame.trans hsame', by
    rw [← List.append_assoc]⟩

theorem Emits.mono (h : Emits S text s s') (hST : S ⊆ T) :
    Emits T text s s' := by
  obtain ⟨m, mem, loads, hsame, rfl⟩ := h
  exact ⟨m, mem, loads, hsame.mono (Set.compl_subset_compl.mpr hST), rfl⟩

theorem Emits.same (h : Emits S text s s') : SameOn Sᶜ s.mem s'.mem := by
  obtain ⟨m, mem, loads, hsame, rfl⟩ := h
  exact hsame

theorem emits_setMem {m : Memory} (h : SameOn Sᶜ s.mem m) :
    Emits S [] s (s.setMem m) :=
  ⟨m, s.ramdisk.mem, s.ramdisk.loads, h, by
    rw [List.append_nil]
    rfl⟩

/-- Work that leaves the fixed areas alone and the heap in order. -/
theorem Ready.renew (h : Ready link files s bs) {heap : Kheap.State σ}
    {mem : Memory} {loads : List (ℕ × ℕ)} {idx : ℕ} {output : List UInt8}
    (hheap : HeapOk heap bs') (hused : used bs' = used bs)
    (hroom : grownEnd (sizes files) heap.heapEnd bs' < 2 ^ 32)
    (hsame : SameOn (link.fixed files s.ramdisk) s.mem heap.mem) :
    Ready link files ⟨heap, { s.ramdisk with mem := mem, loads := loads },
      s.fsRoot, idx, output⟩ bs' := by
  have hplaced := h.placed
  have hkept := kept_congr hused
  refine ⟨⟨hkept ▸ hplaced.1, hkept ▸ hplaced.2, hkept ▸ hplaced.3, hplaced.4,
    hplaced.5, hplaced.6, hplaced.7, hplaced.8, hplaced.9⟩, hheap, hroom, ?_,
    h.root, fun l => ?_⟩
  · exact h.mounted.keeps
      ⟨heap.mem, loads, rfl, hsame.mono Set.subset_union_left⟩
  · refine (h.constant l).congr hsame (Set.subset_union_of_subset_right ?_ _)
    exact link.literal_subset_constants l

/-- What is written outside the fixed areas and the headers of the heap leaves
the shell ready. -/
theorem Ready.emits (h : Ready link files s bs) (hemits : Emits S text s s')
    (hkept : S ⊆ kept bs) (hfixed : Disjoint (link.fixed files s.ramdisk) S) :
    Ready link files s' bs := by
  obtain ⟨m, mem, loads, hsame, rfl⟩ := hemits
  have hheap := h.heap.rewrite
    (fun b hb => (h.heap.headerOutside_kept hb).mono_right hkept)
    fun a ha => hsame a ha
  exact h.renew hheap rfl h.room
    (hsame.mono (Set.subset_compl_iff_disjoint_right.mpr hfixed))

theorem Ready.emits_scratch (h : Ready link files s bs)
    (hemits : Emits link.scratch text s s') : Ready link files s' bs :=
  h.emits hemits h.placed.scratch_kept h.placed.fixed_scratch

theorem Ready.emits_line (h : Ready link files s bs)
    (hemits : Emits link.line text s s') : Ready link files s' bs :=
  h.emits hemits h.placed.line_kept h.placed.fixed_line

end Emits

end BabOs.Shell
