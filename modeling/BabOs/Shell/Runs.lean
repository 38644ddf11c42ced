import BabOs.Shell.Boot
import BabOs.Shell.Reading

/-!
# Sessions with the shell

Whatever is typed, the shell shows what a session shows, keeps its line and
gives back every block that it takes from the heap.
-/

namespace BabOs.Shell

open Memory Initrd Kheap Blocks Fuel

/-! ## Commands -/

section Compare

variable {m : Memory} {a b : ℕ} {s t : List UInt8}

theorem steady_strcmp (m : Memory) (a b : ℕ) :
    Steady (Common.strcmp m · a b) := by
  refine steady_of_succ fun n => ?_
  induction n generalizing a b with
  | zero => exact fun _ h => absurd h (Option.some_ne_none _).symm
  | succ n ih =>
      intro x h
      rw [Common.strcmp] at h ⊢
      split_ifs at h ⊢
      · obtain ⟨y, hy, rfl⟩ := Option.map_eq_some_iff.mp h
        rw [ih _ _ y hy, Option.map_some]
      · exact h
      · exact h

theorem strcmp_settles (hs : (Str.ptr a).Reads m s)
    (ht : (Str.ptr b).Reads m t) :
    ∃ x, Settles (Common.strcmp m · a b) x ∧ (x.value = 0 ↔ s = t) := by
  obtain ⟨v, hv, hiff⟩ := strcmp_reads hs ht (Nat.lt_succ_self s.length)
  rw [← Common.strcmp_value, Option.map_eq_some_iff] at hv
  obtain ⟨x, hx, rfl⟩ := hv
  exact ⟨x, (steady_strcmp m a b).settles hx, hiff⟩

/-- `strncmp` tells whether a string starts with another one. -/
theorem strncmp_eq_zero_iff (hs : (Str.ptr a).Reads m s)
    (ht : (Str.ptr b).Reads m t) :
    (Common.strncmp m t.length a b).value = 0 ↔ t <+: s := by
  have htake : 0 ∉ s.take t.length := fun h => hs.text (List.mem_of_mem_take h)
  rw [(Common.strncmp_compares hs ht).value, List.take_length,
    Common.difference_eq_zero_iff htake ht.text, eq_comm,
    List.prefix_iff_eq_take]

theorem reads_drop {n : ℕ} (hs : (Str.ptr a).Reads m s) (hn : n ≤ s.length) :
    (Str.ptr (a + n)).Reads m (s.drop n) := by
  refine ⟨fun i hi => ?_, fun h => hs.text (List.mem_of_mem_drop h)⟩
  rw [List.length_drop] at hi
  have hbyte := hs.byte (n + i) (by omega)
  rw [Str.byte, ← Nat.add_assoc] at hbyte
  rw [Str.byte, hbyte, List.getD_eq_getElem?_getD, List.getD_eq_getElem?_getD,
    List.getElem?_drop]

end Compare

section Command

variable {σ : Type} {link : Link} {files : List File} {bs : List Blk}
variable {s : State σ} {line : List UInt8}

theorem Ready.command_settles (h : Ready link files s bs)
    (hholds : Holds s.mem link.cmdBuffer line)
    (hnul : s.mem.byte (link.cmdBuffer + line.length) = 0)
    (hidx : s.cmdIdx = line.length) (hlen : line.length ≤ 127)
    (mapPage : σ → ℕ → σ) :
    ∃ s' bs', Settles (command mapPage link · s) s' ∧
      Answers link files (reply files line) s s' bs bs' := by
  have hreads := reads_cString hholds hnul
  have hle := length_cString_le line
  have hbuffer := h.placed.line_le
  obtain ⟨x, hstrcmp, hls⟩ := strcmp_settles hreads (h.constant .ls)
  have hcat := strncmp_eq_zero_iff hreads (h.constant .cat)
  have hfour : Literal.cat.text.length = 4 := by decide
  rw [hfour] at hcat
  have hsettles {s' : State σ} (hbranch : Settles (fun fuel =>
      if x.value = 0 then list link fuel fuel 0 s
      else if (Common.strncmp s.mem 4 link.cmdBuffer
          (link.literal .cat)).value = 0 then
        cat mapPage link fuel (link.cmdBuffer + 4) s
      else if 0 < s.cmdIdx then
        print link fuel .unknown [BitVec.ofNat 32 link.cmdBuffer] s
      else some s) s') : Settles (command mapPage link · s) s' :=
    hstrcmp.bind hbranch
  rw [reply]
  by_cases htext : cString line = ascii "ls"
  · obtain ⟨s', hlist, hemits⟩ := h.list_settles
    refine ⟨s', bs, hsettles ?_, ?_⟩
    · simp only [if_pos (hls.mpr htext)]
      exact hlist
    · rw [if_pos htext]
      exact h.answers hemits
  rw [if_neg htext]
  have hls := mt hls.mp htext
  by_cases hstarts : ascii "cat " <+: cString line
  · have hfour_le : 4 ≤ (cString line).length := hfour ▸ hstarts.length_le
    obtain ⟨s', bs', hshown, hanswers⟩ := h.cat_settles
      (reads_drop hreads hfour_le)
      (by
        rw [List.length_drop]
        exact Set.Ico_subset_Ico (Nat.le_add_right _ _) (by omega))
      (by omega) mapPage
    refine ⟨s', bs', hsettles ?_, ?_⟩
    · simp only [if_neg hls, if_pos (hcat.mpr hstarts)]
      exact hshown
    · rw [if_pos hstarts]
      exact hanswers
  rw [if_neg hstarts]
  have hcat := mt hcat.mp hstarts
  by_cases hempty : line = []
  · refine ⟨s, bs, hsettles ?_, ?_⟩
    · have hzero : ¬0 < s.cmdIdx := by simp [hidx, hempty]
      simp only [if_neg hls, if_neg hcat, if_neg hzero]
      exact settles_some s
    · rw [if_pos hempty]
      exact h.answers (Emits.refl _ s)
  · obtain ⟨s', hprint, hemits⟩ := h.print_settles
      (passes_string hreads (by omega) (h.placed.line_buffers.symm.mono_right
        (Set.Ico_subset_Ico_right (by omega)))) (expand_unknown _)
    rw [← List.append_assoc] at hemits
    refine ⟨s', bs, hsettles ?_, ?_⟩
    · have hpos : 0 < s.cmdIdx := hidx ▸ List.length_pos_iff.mpr hempty
      simp only [if_neg hls, if_neg hcat, if_pos hpos]
      exact hprint
    · rw [if_neg hempty]
      exact h.answers (hemits.mono Set.subset_union_left)

end Command

/-! ## Characters -/

/-- The shell, which started in `s₀`, is at the point `x` of a session. -/
structure Follows {σ : Type} (link : Link) (files : List File) (s₀ : State σ)
    (bs₀ : List Blk) (x : Session) (s : State σ) (bs : List Blk) : Prop where
  ready : Ready link files s bs
  idx : s.cmdIdx = x.line.length
  length_le : x.line.length ≤ 127
  holds : Holds s.mem link.cmdBuffer x.line
  output : s.output = s₀.output ++ x.output
  used : used bs = used bs₀
  console : s.heap.console = s₀.heap.console
  same : SameOn (kept bs₀ \ (link.scratch ∪ link.line)) s₀.mem s.mem

section Characters

variable {σ : Type} {link : Link} {files : List File} {bs bs₀ : List Blk}
variable {s s₀ : State σ} {x : Session} {m : Memory} {i : ℕ}

theorem Ready.setIdx (h : Ready link files s bs) (i : ℕ) :
    Ready link files { s with cmdIdx := i } bs :=
  ⟨h.placed, h.heap, h.room, h.mounted, h.root, h.constant⟩

theorem Follows.emits_store (h : Follows link files s₀ bs₀ x s bs) (v : ℕ) :
    Emits link.line [] s
      (s.setMem (s.mem.store8 (link.cmdBuffer + s.cmdIdx) v)) := by
  have hlen := h.length_le
  have hidx := h.idx
  refine emits_setMem ((SameOn.refl _ _).store8 fun hout => hout ⟨?_, ?_⟩)
  · exact Nat.le_add_right _ _
  · omega

theorem Follows.holds_store (h : Follows link files s₀ bs₀ x s bs) (v : ℕ) :
    Holds (s.mem.store8 (link.cmdBuffer + s.cmdIdx) v) link.cmdBuffer
      x.line := by
  refine h.holds.congr ((SameOn.refl (Set.Ico link.cmdBuffer
    (link.cmdBuffer + x.line.length)) s.mem).store8 fun hin => ?_) subset_rfl
  rw [h.idx] at hin
  exact absurd hin.2 (lt_irrefl _)

/-- What the line and the scratch memory have to do with the rest. -/
theorem Follows.same_of_line (h : Follows link files s₀ bs₀ x s bs)
    (hsame : SameOn link.lineᶜ s.mem m) :
    SameOn (kept bs₀ \ (link.scratch ∪ link.line)) s₀.mem m :=
  h.same.trans (hsame.mono fun _ ha hin => ha.2 (Or.inr hin))

theorem Follows.newline (h : Follows link files s₀ bs₀ x s bs)
    (mapPage : σ → ℕ → σ) :
    ∃ s' bs', Settles (step mapPage link · 0x0A s) s' ∧
      Follows link files s₀ bs₀ (x.press files 0x0A) s' bs' := by
  have hstore := h.emits_store 0
  have hnul : (s.mem.store8 (link.cmdBuffer + s.cmdIdx) 0).byte
      (link.cmdBuffer + x.line.length) = 0 := by
    rw [h.idx]
    exact byte_store8
  obtain ⟨s₁, bs₁, hcommand, hanswers⟩ :=
    (h.ready.emits_line hstore).command_settles (h.holds_store 0) hnul h.idx
      h.length_le mapPage
  obtain ⟨s₂, hprint, hemits⟩ := hanswers.ready.print_text_settles
    (show 0x25 ∉ Literal.prompt.text by decide)
  have hlater := hanswers.ready.answers (hemits.mono Set.subset_union_left)
  have hkept : kept bs = kept bs₀ := kept_congr h.used
  have hkept₁ : kept bs₁ = kept bs := kept_congr hanswers.used
  have hframe : kept bs₀ \ (link.scratch ∪ link.line) ⊆
      kept bs ∩ link.scratchᶜ :=
    fun a ha => ⟨hkept ▸ ha.1, fun hin => ha.2 (Or.inl hin)⟩
  refine ⟨{ s₂ with cmdIdx := 0 }, bs₁,
    hcommand.bind (hprint.bind (settles_some _)), hlater.ready.setIdx 0, rfl,
    Nat.zero_le _, holds_nil _ _, ?_, hanswers.used.trans h.used, ?_, ?_⟩
  · change s₂.output = s₀.output ++ (x.output ++ reply files x.line ++ ascii "> ")
    rw [hlater.output, hanswers.output, ← List.append_assoc, ← List.append_assoc,
      ← h.output]
    rfl
  · exact hlater.console.trans (hanswers.console.trans h.console)
  · refine (h.same_of_line hstore.same).trans ((hanswers.same.mono hframe).trans
      (hlater.same.mono ?_))
    rw [hkept₁]
    exact hframe

theorem Follows.backspace (h : Follows link files s₀ bs₀ x s bs)
    (mapPage : σ → ℕ → σ) :
    ∃ s' bs', Settles (step mapPage link · 0x08 s) s' ∧
      Follows link files s₀ bs₀ (x.press files 0x08) s' bs' := by
  have hpress : x.press files 0x08 = { x with line := x.line.dropLast } := by
    rw [Session.press, if_neg (by decide), if_pos rfl]
  have hlen := h.length_le
  have hstep : ∀ fuel, step mapPage link fuel 0x08 s =
      if 0 < s.cmdIdx then some { s with cmdIdx := s.cmdIdx - 1 }
      else some s := by
    intro fuel
    rw [step, if_neg (by decide), if_pos rfl]
  rw [hpress]
  by_cases hpos : 0 < s.cmdIdx
  · refine ⟨{ s with cmdIdx := s.cmdIdx - 1 }, bs, ⟨0, fun fuel _ => ?_⟩,
      h.ready.setIdx _, ?_, ?_, ?_, h.output, h.used, h.console, h.same⟩
    · exact (hstep fuel).trans (if_pos hpos)
    · rw [List.length_dropLast, ← h.idx]
    · rw [List.length_dropLast]
      omega
    · have hholds := h.holds
      have hne : x.line ≠ [] := by
        rw [h.idx] at hpos
        exact List.length_pos_iff.mp hpos
      rw [← List.dropLast_append_getLast hne, holds_append] at hholds
      exact hholds.1
  · have hempty : x.line = [] := by
      rw [h.idx] at hpos
      exact List.length_eq_zero_iff.mp (Nat.eq_zero_of_not_pos hpos)
    have hsame : ({ x with line := x.line.dropLast } : Session) = x := by
      rw [hempty, List.dropLast_nil, ← hempty]
    rw [hsame]
    exact ⟨s, bs, ⟨0, fun fuel _ => (hstep fuel).trans (if_neg hpos)⟩, h⟩

/-- A character is put behind the line, if there is room. -/
theorem Follows.character (h : Follows link files s₀ bs₀ x s bs) {c : UInt8}
    (hnewline : c ≠ 0x0A) (hbackspace : c ≠ 0x08) (mapPage : σ → ℕ → σ) :
    ∃ s' bs', Settles (step mapPage link · c s) s' ∧
      Follows link files s₀ bs₀ (x.press files c) s' bs' := by
  have hidx := h.idx
  by_cases hroom : s.cmdIdx < 127
  · have hpress : x.press files c = { x with line := x.line ++ [c] } := by
      rw [Session.press, if_neg hnewline, if_neg hbackspace,
        if_pos (hidx ▸ hroom)]
    have hstore := h.emits_store c.toNat
    rw [hpress]
    refine ⟨{ s.setMem (s.mem.store8 (link.cmdBuffer + s.cmdIdx) c.toNat) with
        cmdIdx := s.cmdIdx + 1 }, bs, ⟨0, fun fuel _ => ?_⟩,
      (h.ready.emits_line hstore).setIdx _, ?_, ?_, ?_, h.output, h.used,
      h.console, h.same_of_line hstore.same⟩
    · change step mapPage link fuel c s = _
      rw [step, if_neg hnewline, if_neg hbackspace, if_pos hroom]
    · change s.cmdIdx + 1 = (x.line ++ [c]).length
      rw [hidx, List.length_append, List.length_singleton]
    · change (x.line ++ [c]).length ≤ 127
      rw [List.length_append, List.length_singleton]
      omega
    · refine holds_append.mpr ⟨h.holds_store _, fun i hi => ?_⟩
      obtain rfl : i = 0 := by
        rw [List.length_singleton] at hi
        omega
      change (s.mem.store8 (link.cmdBuffer + s.cmdIdx) c.toNat).byte
        (link.cmdBuffer + x.line.length + 0) = c
      rw [hidx, Nat.add_zero, byte_store8, UInt8.ofNat_toNat]
  · have hpress : x.press files c = x := by
      rw [Session.press, if_neg hnewline, if_neg hbackspace,
        if_neg (hidx ▸ hroom)]
    rw [hpress]
    refine ⟨s, bs, ⟨0, fun fuel _ => ?_⟩, h⟩
    change step mapPage link fuel c s = _
    rw [step, if_neg hnewline, if_neg hbackspace, if_neg hroom]

/-- A character does to the shell what it does to the session. -/
theorem Follows.step_settles (h : Follows link files s₀ bs₀ x s bs) (c : UInt8)
    (mapPage : σ → ℕ → σ) :
    ∃ s' bs', Settles (step mapPage link · c s) s' ∧
      Follows link files s₀ bs₀ (x.press files c) s' bs' := by
  by_cases hnewline : c = 0x0A
  · subst hnewline
    exact h.newline mapPage
  by_cases hbackspace : c = 0x08
  · subst hbackspace
    exact h.backspace mapPage
  · exact h.character hnewline hbackspace mapPage

theorem Follows.loop_settles (h : Follows link files s₀ bs₀ x s bs)
    (keys : List UInt8) (mapPage : σ → ℕ → σ) :
    ∃ s' bs', Settles (loop mapPage link · keys s) s' ∧
      Follows link files s₀ bs₀ (keys.foldl (Session.press files) x) s' bs' := by
  induction keys generalizing x s bs with
  | nil => exact ⟨s, bs, settles_some s, h⟩
  | cons c keys ih =>
      obtain ⟨s₁, bs₁, hstep, h₁⟩ := h.step_settles c mapPage
      obtain ⟨s', bs', hloop, h'⟩ := ih h₁
      exact ⟨s', bs', hstep.bind hloop, h'⟩

theorem Ready.shellTask_settles (h : Ready link files s bs)
    (keys : List UInt8) (mapPage : σ → ℕ → σ) :
    ∃ s' bs', Settles (shellTask mapPage link · keys s) s' ∧
      Follows link files s bs (session files keys) s' bs' := by
  obtain ⟨s₁, hprint, hemits⟩ := (h.setIdx 0).print_text_settles
    (show 0x25 ∉ Literal.banner.text by decide)
  have hanswers := (h.setIdx 0).answers (hemits.mono Set.subset_union_left)
  have hfollows : Follows link files s bs ⟨[], Literal.banner.text⟩ s₁ bs := by
    refine ⟨hanswers.ready, hanswers.cmdIdx, Nat.zero_le _, holds_nil _ _,
      hanswers.output, rfl, hanswers.console, hanswers.same.mono ?_⟩
    exact fun a ha => ⟨ha.1, fun hin => ha.2 (Or.inl hin)⟩
  obtain ⟨s', bs', hloop, hend⟩ := hfollows.loop_settles keys mapPage
  exact ⟨s', bs', hprint.bind hloop, hend⟩

end Characters

/-! ## Sessions -/

section Sessions

variable {σ : Type} {link : Link} {files : List File} {image : List UInt8}
variable {s : State σ} {bs : List Blk} {fuel : ℕ}

/-- Whatever is typed, the shell shows what a session with the files shows.
Every block that it takes from the heap is back, and no byte of another client
has changed. -/
theorem shellTask_session (h : Ready link files s bs) (keys : List UInt8)
    (mapPage : σ → ℕ → σ) :
    ∃ s' bs', Settles (shellTask mapPage link · keys s) s' ∧
      s'.output = s.output ++ (session files keys).output ∧
      Ready link files s' bs' ∧ used bs' = used bs ∧
      s'.heap.console = s.heap.console ∧
      SameOn (kept bs \ (link.scratch ∪ link.line)) s.mem s'.mem := by
  obtain ⟨s', bs', hshell, hfollows⟩ := h.shellTask_settles keys mapPage
  exact ⟨s', bs', hshell, hfollows.output, hfollows.ready, hfollows.used,
    hfollows.console, hfollows.same⟩

/-- A file is shown. -/
theorem shellTask_session_cat : ∃ (link : Link) (s s' : State Unit),
    Settles (shellTask noPages link · (ascii "cat a\n") s) s' ∧
      s'.output = s.output ++ (Literal.banner.text ++ [7, 8] ++ ascii "\n> ") := by
  obtain ⟨image, hloaded⟩ := exists_loaded_twoFiles
  obtain ⟨s₁, bs, -, hmounts⟩ :=
    hloaded.kmain_mounts (le_refl 64) (by decide) noPages
  obtain ⟨stack, heap, bs', -, hready⟩ :=
    hmounts.ready hloaded lowLiterals_locals (le_refl 64) noPages
  obtain ⟨s', -, hshell, houtput, -⟩ := shellTask_session
    (hready heap.mem (SameOn.refl _ _)) (ascii "cat a\n") noPages
  have hsession : (session twoFiles (ascii "cat a\n")).output =
    Literal.banner.text ++ [7, 8] ++ ascii "\n> " := by decide
  exact ⟨_, _, s', hshell, hsession ▸ houtput⟩

theorem Loaded.shows (h : Loaded link files image s.mem)
    (hlocals : link.Locals) (hfuel : 64 ≤ fuel) (hrounds : files.length < fuel)
    (mapPage : σ → ℕ → σ) :
    ∃ s₁ stack heap, kmain mapPage link.fs fuel s = some s₁ ∧
      Kheap.kmalloc mapPage fuel stackSize s₁.heap = some (stack, heap) ∧
      ∀ m, SameOn (Set.Ico stack (stack + stackSize))ᶜ heap.mem m →
        ∀ keys, ∃ s',
          Settles (shellTask mapPage (link.onStack stack) · keys
            { s₁ with heap := { heap with mem := m } }) s' ∧
          s'.output = s.output ++ (session files keys).output := by
  obtain ⟨s₁, bs, hkmain, hmounts⟩ := h.kmain_mounts hfuel hrounds mapPage
  obtain ⟨stack, heap, bs', hstack, hready⟩ :=
    hmounts.ready h hlocals hfuel mapPage
  refine ⟨s₁, stack, heap, hkmain, hstack, fun m hm keys => ?_⟩
  obtain ⟨s', bs₂, hshell, hfollows⟩ :=
    (hready m hm).shellTask_settles keys mapPage
  exact ⟨s', hshell, by rw [hfollows.output, hmounts.output]⟩

/-- From the image on, the shell shows what a session with the packed files
shows, whatever its stack holds when it starts. -/
theorem kmain_session (h : Loaded link files image s.mem)
    (hlocals : link.Locals) (hfuel : 64 ≤ fuel) (hrounds : files.length < fuel)
    (mapPage : σ → ℕ → σ) :
    ∃ s₁ stack heap, kmain mapPage link.fs fuel s = some s₁ ∧
      Kheap.kmalloc mapPage fuel stackSize s₁.heap = some (stack, heap) ∧
      ∀ m, SameOn (Set.Ico stack (stack + stackSize))ᶜ heap.mem m →
        ∀ keys, ∃ s',
          Settles (shellTask mapPage (link.onStack stack) · keys
            { s₁ with heap := { heap with mem := m } }) s' ∧
          s'.output = s.output ++ (session files keys).output :=
  h.shows hlocals hfuel hrounds mapPage

theorem kmain_session_twoFiles : ∃ image s₁ stack heap,
    kmain noPages lowLink 64 (loadedState image) = some s₁ ∧
      Kheap.kmalloc noPages 64 stackSize s₁.heap = some (stack, heap) ∧
      ∀ m, SameOn (Set.Ico stack (stack + stackSize))ᶜ heap.mem m →
        ∀ keys, ∃ s',
          Settles (shellTask noPages (lowLiterals.onStack stack) · keys
            { s₁ with heap := { heap with mem := m } }) s' ∧
          s'.output = [] ++ (session twoFiles keys).output := by
  obtain ⟨image, hloaded⟩ := exists_loaded_twoFiles
  exact ⟨image, kmain_session hloaded lowLiterals_locals (le_refl 64)
    (by decide) noPages⟩

end Sessions

end BabOs.Shell
