import BabOs.Initrd.Reads
import BabOs.Shell.Listing

/-!
# `cat`

The file is read into a block of the heap, shown up to its first `0`, and the
block is given back.
-/

namespace BabOs.Shell

open Memory Initrd Kheap Blocks Fuel Terminal.Printf

/-! ## Strings -/

section Strings

variable {m : Memory} {a : ℕ} {bytes : List UInt8}

/-- Bytes with a `0` behind them are a string, perhaps a shorter one. -/
theorem reads_cString (h : Holds m a bytes)
    (hnul : m.byte (a + bytes.length) = 0) :
    (Str.ptr a).Reads m (cString bytes) := by
  induction bytes generalizing a with
  | nil => exact (holds_nil m a).reads hnul (List.not_mem_nil)
  | cons c bytes ih =>
      have hc : m.byte a = c := h 0 (Nat.zero_lt_succ _)
      by_cases hzero : c = 0
      · have hempty : cString (c :: bytes) = [] := by simp [cString, hzero]
        rw [hempty]
        exact (holds_nil m a).reads (hc.trans hzero) List.not_mem_nil
      · have hcons : cString (c :: bytes) = c :: cString bytes := by
          simp [cString, hzero]
        rw [hcons]
        refine Str.Reads.cons (ih ?_ ?_) hc hzero
        · exact (holds_append.mp (show Holds m a ([c] ++ bytes) from h)).2
        · rw [← hnul, List.length_cons, Nat.add_right_comm, Nat.add_assoc]

theorem length_cString_le (bytes : List UInt8) :
    (cString bytes).length ≤ bytes.length :=
  (List.takeWhile_sublist _).length_le

end Strings

/-! ## A whole file -/

section Read

variable {link : Initrd.Link} {files : List File} {r : Initrd.State}
variable {e : Entry} {p buf : ℕ}

theorem Stands.ne_zero (hstands : Stands files r (some e) p)
    (h : Mounted link files r) : p ≠ 0 := by
  cases hstands with
  | directory => exact h.layout.dev_pos.ne'
  | file hf => exact (h.node_pos (List.getElem?_eq_some_iff.mp hf).1).ne'

theorem Stands.keeps {r' : Initrd.State} {o : Option Entry}
    (hstands : Stands files r o p) (hkeeps : Initrd.Keeps files r r') :
    Stands files r' o p := by
  obtain ⟨mem, loads, rfl, -⟩ := hkeeps
  cases hstands with
  | missing => exact Stands.missing
  | directory => exact Stands.directory
  | file hf => exact Stands.file hf

theorem Stands.length (hstands : Stands files r (some e) p)
    (h : Mounted link files r) :
    load32 r.mem (p + VfsNode.length) = e.content.length := by
  cases hstands with
  | directory => exact h.dev.length
  | file hf => exact (h.file _ _ hf).node.length

theorem Stands.mem_sizes (hstands : Stands files r (some e) p) :
    e.content.length + 1 ∈ sizes files := by
  cases hstands with
  | directory => exact List.mem_cons_self
  | file hf =>
      exact List.mem_cons_of_mem _
        (List.mem_map.mpr ⟨_, List.mem_of_getElem? hf, rfl⟩)

theorem Stands.read (hstands : Stands files r (some e) p)
    (h : Mounted link files r) (hbuf : Buffer files r buf e.content.length) :
    ∃ m loads, vfsRead link p 0 e.content.length buf r =
        some (e.content.length, { r with mem := m, loads := loads }) ∧
      Holds m buf e.content ∧
      SameOn (Set.Ico buf (buf + e.content.length))ᶜ r.mem m := by
  cases hstands with
  | directory =>
      refine ⟨r.mem, r.loads, ?_, holds_nil _ _, SameOn.refl _ _⟩
      rw [vfsRead, h.dev.read]
      exact if_pos rfl
  | @file i f hf =>
      have hclip : clipped f.content.length 0 f.content.length =
          f.content.length := by
        rw [clipped, if_pos (Nat.zero_le _), Nat.sub_zero, Nat.min_self]
      have hlt := (h.content_bounds hf).1
      obtain ⟨s', hread, hbytes, hsame, -, -, mem, loads, rfl, -⟩ :=
        h.readsClipped hf (by rwa [hclip])
          (Or.inr (show 0 + f.content.length < 2 ^ 32 by omega))
      rw [hclip] at hread hsame
      rw [hclip, List.drop_zero, List.take_length] at hbytes
      exact ⟨mem, loads, hread, hbytes, hsame⟩

theorem Stands.fills (hstands : Stands files r (some e) p)
    (h : Mounted link files r) (hlt : buf + (e.content.length + 1) < 2 ^ 32)
    (hapart : Disjoint (r.region (imageSize files) files.length)
      (Set.Ico buf (buf + (e.content.length + 1)))) :
    ∃ m loads, vfsRead link p 0 e.content.length buf r =
        some (e.content.length, { r with mem := m, loads := loads }) ∧
      SameOn (Set.Ico buf (buf + (e.content.length + 1)))ᶜ r.mem
        (m.store8 (buf + e.content.length) 0) ∧
      (Str.ptr buf).Reads (m.store8 (buf + e.content.length) 0)
        (cString e.content) := by
  have hsubset : Set.Ico buf (buf + e.content.length) ⊆
      Set.Ico buf (buf + (e.content.length + 1)) :=
    Set.Ico_subset_Ico_right (by omega)
  obtain ⟨m, loads, hread, hholds, hsame⟩ := hstands.read h
    ⟨by omega, hapart.mono_right hsubset⟩
  refine ⟨m, loads, hread, ?_, reads_cString ?_ byte_store8⟩
  · apply (hsame.mono (Set.compl_subset_compl.mpr hsubset)).store8
    exact fun hout => hout ⟨Nat.le_add_right _ _, by omega⟩
  · apply hholds.congr _ subset_rfl
    exact (SameOn.refl _ m).store8 fun hin => absurd hin.2 (lt_irrefl _)

end Read

/-! ## The command -/

/-- `s'` is `s` after a command that answers `text` and leaves the shell ready
for the next one; apart from its scratch memory, it changes no byte that the
heap keeps. -/
structure Answers {σ : Type} (link : Link) (files : List File)
    (text : List UInt8) (s s' : State σ) (bs bs' : List Blk) : Prop where
  ready : Ready link files s' bs'
  used : used bs' = used bs
  output : s'.output = s.output ++ text
  cmdIdx : s'.cmdIdx = s.cmdIdx
  console : s'.heap.console = s.heap.console
  same : SameOn (kept bs ∩ link.scratchᶜ) s.mem s'.mem

section Cat

variable {σ : Type} {mapPage : σ → ℕ → σ} {link : Link} {files : List File}
variable {bs bs₁ : List Blk} {s s' : State σ} {e : Entry}
variable {filename p buf size : ℕ} {name text : List UInt8}

theorem Ready.answers (h : Ready link files s bs)
    (hemits : Emits link.scratch text s s') :
    Answers link files text s s' bs bs := by
  have hready := h.emits_scratch hemits
  obtain ⟨m, mem, loads, hsame, rfl⟩ := hemits
  exact ⟨hready, rfl, rfl, rfl, rfl, hsame.mono Set.inter_subset_right⟩

theorem Ready.affords (h : Ready link files s bs) :
    Affords (sizes files) s.heap bs := by
  refine ⟨fun n hn => ?_, fun n hn => ?_, h.room⟩
  · rcases List.mem_cons.mp hn with rfl | hn
    · exact Nat.one_pos
    · obtain ⟨f, -, rfl⟩ := List.mem_map.mp hn
      exact Nat.succ_pos _
  · rcases List.mem_cons.mp hn with rfl | hn
    · norm_num
    · obtain ⟨f, hf, rfl⟩ := List.mem_map.mp hn
      obtain ⟨i, hi⟩ := List.getElem?_of_mem hf
      have hlt := (h.mounted.content_bounds hi).1
      have hlo := (@offsetFrom_bounds f files (4 + files.length * 76) i hi).1
      omega

/-- The content of a node is shown, and the block of the heap is given back. -/
theorem Ready.catNode_settles (h : Ready link files s bs)
    (hstands : Stands files s.fs (some e) p) (mapPage : σ → ℕ → σ) :
    ∃ s' bs', Settles (catNode mapPage link · p s) s' ∧
      Answers link files (cString e.content ++ ascii "\n") s s' bs bs' := by
  obtain ⟨n, buf, heap, bs₁, ⟨-, bound, hcall⟩, hlends, hused, hafford⟩ :=
    h.heap.lends h.affords hstands.mem_sizes mapPage
  have hlt := hlends.end_lt
  have hplaced := h.placed
  have hfixed : Disjoint (link.fixed files s.ramdisk)
      (Set.Ico buf (buf + (e.content.length + 1))) :=
    hlends.apart.mono_left hplaced.fixed_kept
  have hbuffers : Disjoint link.buffers
      (Set.Ico buf (buf + (e.content.length + 1))) :=
    hlends.apart.mono_left
      (Set.subset_union_left.trans hplaced.scratch_kept)
  have hkeeps : Initrd.Keeps files s.fs { s.fs with mem := heap.mem } :=
    ⟨heap.mem, s.ramdisk.loads, rfl, hlends.same.mono
      (Set.subset_union_left.trans hplaced.fixed_kept)⟩
  have hmounted := h.mounted.keeps hkeeps
  have hstands₁ := hstands.keeps hkeeps
  obtain ⟨m, loads, hread, hfilled, hreads⟩ :=
    hstands₁.fills hmounted hlt (hfixed.mono_left Set.subset_union_left)
  have hsame : SameOn (link.fixed files s.ramdisk) s.mem
      (m.store8 (buf + e.content.length) 0) :=
    (hlends.same.mono hplaced.fixed_kept).trans
      (hfilled.mono (Set.subset_compl_iff_disjoint_right.mpr hfixed))
  have hshown : Set.Ico buf (buf + ((cString e.content).length + 1)) ⊆
      Set.Ico buf (buf + (e.content.length + 1)) := by
    have hle := length_cString_le e.content
    exact Set.Ico_subset_Ico_right (by omega)
  obtain ⟨s₄, ⟨bound', hprint⟩, m₄, mem, loads', hout, rfl⟩ :=
    settles_print (l := .content)
      (s := (State.setFs { s.fs with
        mem := m
        loads := loads } { s with heap := heap }).setMem
          (m.store8 (buf + e.content.length) 0))
      ((h.constant .content).congr hsame
        ((link.literal_subset_constants .content).trans
          Set.subset_union_right))
      hplaced.constants_buffers
      (passes_string hreads (by omega) (hbuffers.mono_right hshown))
      (expand_content _)
  have hbuffers_kept : link.buffers ⊆ kept bs :=
    Set.subset_union_left.trans hplaced.scratch_kept
  have hregains := hlends.regains m₄
    ((hfilled.mono (Set.compl_subset_compl.mpr Set.subset_union_left)).trans
      (hout.mono (Set.compl_subset_compl.mpr
        (hbuffers_kept.trans Set.subset_union_right))))
  have hframe : SameOn (kept bs ∩ link.scratchᶜ) s.mem
      (kfree buf { heap with mem := m₄ }).mem := by
    refine (hlends.same.mono Set.inter_subset_left).trans ((hfilled.mono ?_).trans
      ((hout.mono ?_).trans (hregains.same.mono Set.inter_subset_left)))
    · exact Set.inter_subset_left.trans
        (Set.subset_compl_iff_disjoint_right.mpr hlends.apart)
    · exact Set.inter_subset_right.trans
        (Set.compl_subset_compl.mpr Set.subset_union_left)
  have hfixed_frame : link.fixed files s.ramdisk ⊆ kept bs ∩ link.scratchᶜ :=
    Set.subset_inter hplaced.fixed_kept
      (Set.subset_compl_iff_disjoint_right.mpr hplaced.fixed_scratch)
  refine ⟨⟨kfree buf { heap with mem := m₄ },
      { s.ramdisk with mem := mem, loads := loads' }, s.fsRoot, s.cmdIdx,
      s.output ++ (cString e.content ++ ascii "\n")⟩, bs₁,
    ⟨max bound bound', fun fuel hfuel => ?_⟩,
    h.renew hregains.ok hused (hafford.congr hregains.heapEnd).room
      (hframe.mono hfixed_frame),
    hused, rfl, rfl, hregains.console.trans hlends.console, hframe⟩
  rw [max_le_iff] at hfuel
  have hlength : s.mem.load32 (p + VfsNode.length) = e.content.length :=
    hstands.length h.mounted
  have hlength₁ : heap.mem.load32 (p + VfsNode.length) = e.content.length :=
    hstands₁.length hmounted
  have hsize : uint32 (e.content.length + 1) = e.content.length + 1 :=
    uint32_eq_of_lt (by omega)
  have hsum : uint32 (buf + e.content.length) = buf + e.content.length :=
    uint32_eq_of_lt (by omega)
  simp only [catNode, Option.bind_eq_bind, hlength, hsize, kmalloc,
    hcall fuel hfuel.1, Option.bind_some]
  simp only [State.mem, State.fs, hlength₁]
  refine Option.bind_eq_some_iff.mpr ⟨_, hread, ?_⟩
  dsimp only
  rw [hsum]
  exact Option.bind_eq_some_iff.mpr ⟨_, hprint fuel hfuel.2, rfl⟩

theorem Ready.cat_settles (h : Ready link files s bs)
    (hreads : (Str.ptr filename).Reads s.mem name)
    (hline : Set.Ico filename (filename + (name.length + 1)) ⊆ link.line)
    (hlt : filename < 2 ^ 32) (mapPage : σ → ℕ → σ) :
    ∃ s' bs', Settles (cat mapPage link · filename s) s' ∧
      Answers link files (showFile files name) s s' bs bs' := by
  obtain ⟨p, hfind, hstands⟩ := finddir_settles h.mounted hreads
  have hfind' : Settles (vfsFinddir · link.fs s.fsRoot (.ptr filename) s.fs)
      p := by
    rw [h.root]
    exact hfind
  rw [showFile]
  cases he : lookup files name with
  | none =>
      rw [he] at hstands
      cases hstands
      obtain ⟨s', hprint, hemits⟩ := h.print_settles
        (passes_string hreads hlt (h.placed.line_buffers.symm.mono_right hline))
        (expand_notFound name)
      rw [← List.append_assoc] at hemits
      refine ⟨s', bs, hfind'.bind ?_,
        h.answers (hemits.mono Set.subset_union_left)⟩
      exact hprint
  | some e =>
      rw [he] at hstands
      obtain ⟨s', bs', hcat, hanswers⟩ := h.catNode_settles hstands mapPage
      refine ⟨s', bs', hfind'.bind ?_, hanswers⟩
      simp only [if_pos (hstands.ne_zero h.mounted)]
      exact hcat

end Cat

end BabOs.Shell
