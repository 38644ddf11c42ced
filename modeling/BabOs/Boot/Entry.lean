import BabOs.Boot.PageTables
import BabOs.Boot.Stages

/-!
# The entry of the kernel

`_start` writes its page tables, switches to them and clears the uninitialised
data, before it calls `kmain`.  This module says what the kernel then sees: its
own image and the ramdisk, at the addresses that it is linked for.
-/

namespace BabOs.Boot

open BabOs.Vmm Memory

/-! ## `_start` -/

section Start

variable {σ : Type*}

/-- A store of a byte to a virtual address; `none` is a page fault. -/
def storeByte (v x : ℕ) (s : State σ) : Option (State σ) :=
  (walk s v).map fun p => { s with mem := s.mem.store8 p.1 x }

/-- `rep stosb` -/
def repStosb (al : ℕ) : (ecx edi : ℕ) → State σ → Option (State σ)
  | 0, _, s => some s
  | ecx + 1, edi, s => (storeByte edi al s).bind (repStosb al ecx (edi + 1))

/-- The letter that `_start` puts on the screen. -/
def showLetter (m : Memory) : Memory :=
  (m.store8 0xB8000 0x4B).store8 0xB8001 0x0F

/-- `_start` up to the call of `kmain`. -/
def start (directory bssStart bssEnd : ℕ) (s : State σ) : Option (State σ) :=
  repStosb 0 (sub32 bssEnd bssStart) bssStart
    (enterPaging directory { s with mem := showLetter s.mem })

/-- The byte at a virtual address. -/
def seen (s : State σ) (v : ℕ) : Option UInt8 :=
  (walk s v).map fun p => s.mem.byte p.1

end Start

/-- The addresses of the page tables, which are a part of the kernel's file, and
of the data behind the file, below the ramdisk. -/
structure LinkedAt (kernel : List UInt8) (directory bssStart bssEnd : ℕ) :
    Prop where
  aligned : pageSize ∣ directory
  tables_le : 0x10000 ≤ directory
  tables_end : directory + 0x3000 ≤ 0x10000 + kernel.length
  bss_start : kernelVirtualBase + 0x10000 + kernel.length ≤ bssStart
  bss_le : bssStart ≤ bssEnd
  bss_end : bssEnd ≤ kernelVirtualBase + 0x40000

def tables (directory : ℕ) : Set ℕ := Set.Ico directory (directory + 0x3000)

/-! ## What the tables depend on -/

section Walks

variable {σ : Type*} {directory bssStart bssEnd v n step edi eax : ℕ}
  {s s' : State σ} {m : Memory}

theorem sameOn_stosdLoop :
    SameOn (Set.Ico edi (edi + 4 * n))ᶜ m (stosdLoop step n edi eax m).2 := by
  induction n generalizing edi eax m with
  | zero => exact SameOn.refl _ m
  | succ n ih =>
      refine SameOn.trans ((SameOn.refl _ m).store32 (v := eax) ?_)
        (ih.mono fun x hx => ?_)
      · rw [Set.disjoint_compl_left_iff_subset]
        exact Set.Ico_subset_Ico_right (by omega)
      · simp only [Set.mem_compl_iff, Set.mem_Ico] at hx ⊢
        omega

theorem sameOn_enterPaging (directory : ℕ) (s : State σ) :
    SameOn (tables directory)ᶜ s.mem (enterPaging directory s).mem := by
  have hslot : ∀ {i : ℕ} {m m' : Memory} {x : ℕ}, i < 1024 →
      SameOn (tables directory)ᶜ m m' →
        SameOn (tables directory)ᶜ m (m'.store32 (directory + i * 4) x) := by
    intro i m m' x hi hsame
    apply hsame.store32
    rw [Set.disjoint_compl_left_iff_subset]
    exact Set.Ico_subset_Ico (Nat.le_add_right _ _) (by omega)
  have hfill : ∀ {k step eax : ℕ} {m : Memory}, k < 3 →
      SameOn (tables directory)ᶜ m
        (stosdLoop step 1024 (directory + 4096 * k) eax m).2 := by
    intro k step eax m hk
    apply sameOn_stosdLoop.mono
    apply Set.compl_subset_compl.mpr
    exact Set.Ico_subset_Ico (Nat.le_add_right _ _) (by omega)
  have htables : SameOn (tables directory)ᶜ s.mem
      (fillTables directory s.mem) :=
    ((hfill (k := 0) (by omega)).trans (hfill (k := 1) (by omega))).trans
      (hfill (k := 2) (by omega))
  exact htables.trans (hslot (by decide) (hslot (i := 1) (by decide)
    (hslot (by decide) (hslot (i := 0) (by decide) (SameOn.refl _ _)))))

theorem walk_congr (hdvd : pageSize ∣ directory)
    (hlt : directory + 0x3000 ≤ 2 ^ 32) (hv : v < 2 ^ 32)
    (hsame : SameOn (tables directory) (enterPaging directory s).mem s'.mem)
    (hdirectory : s'.currentDirectory = directory) :
    walk s' v = walk (enterPaging directory s) v := by
  have hi := pdIndex_lt hv
  have hj := ptIndex_lt v
  have hslot : pde s' v = slot (enterPaging directory s) (pdIndex v) := by
    rw [pde, pdeAddr, hdirectory]
    apply hsame.load32
    exact Set.Ico_subset_Ico (Nat.le_add_right _ _) (by omega)
  have hpde : pde (enterPaging directory s) v =
    slot (enterPaging directory s) (pdIndex v) := rfl
  rw [walk, walk, hslot, hpde]
  have hvalue := slot_enterPaging (s := s) hdvd hlt hi
  rw [pageSize] at hdvd
  split_ifs with hpresent
  · rfl
  have htable : slot (enterPaging directory s) (pdIndex v) &&& 0xFFFFF000 =
      directory + 4096 ∨
    slot (enterPaging directory s) (pdIndex v) &&& 0xFFFFF000 =
      directory + 8192 := by
    split_ifs at hvalue with h₁ h₂
    · rw [hvalue, and_high (by omega)]
      omega
    · rw [hvalue, and_high (by omega)]
      omega
    · rw [hvalue, Nat.zero_and] at hpresent
      exact absurd rfl hpresent
  dsimp only
  rw [hsame.load32]
  exact Set.Ico_subset_Ico (by omega) (by omega)

end Walks

/-! ## What the kernel sees -/

/-- The tables in use are those that `enterPaging` has made. -/
structure OnTables {σ : Type*} (directory : ℕ) (s₀ s : State σ) : Prop where
  same : SameOn (tables directory) (enterPaging directory s₀).mem s.mem
  current : s.currentDirectory = directory

/-- What the kernel finds at the addresses that it is linked for: its file but
for the tables, the ramdisk, and zeros. -/
structure Entered {σ : Type*} (s : State σ) (kernel initrd : List UInt8)
    (directory bssStart bssEnd : ℕ) : Prop where
  kernel : ∀ i (hi : i < kernel.length), 0x10000 + i ∉ tables directory →
    seen s (kernelVirtualBase + 0x10000 + i) = some kernel[i]
  initrd : ∀ i (hi : i < initrd.length),
    seen s (kernelVirtualBase + 0x40000 + i) = some initrd[i]
  bss : ∀ v, bssStart ≤ v → v < bssEnd → seen s v = some 0

section Entry

variable {σ : Type*} {directory bssStart bssEnd v n al edi : ℕ}
  {s₀ s s' : State σ} {stage2 kernel initrd : List UInt8}

theorem LinkedAt.directory_le (h : LinkedAt kernel directory bssStart bssEnd) :
    directory + 0x3000 ≤ 0x40000 := by
  have hend := h.tables_end
  have hbss := h.bss_start.trans (h.bss_le.trans h.bss_end)
  omega

theorem OnTables.walk (h : OnTables directory s₀ s)
    (hdvd : pageSize ∣ directory) (hlt : directory + 0x3000 ≤ 2 ^ 32)
    (hv : v < 0x800000) :
    Vmm.walk s (kernelVirtualBase + v) = some (v, 3) := by
  have hbase : kernelVirtualBase = 0xC0000000 := rfl
  rw [walk_congr hdvd hlt (by omega) h.same h.current,
    walk_enterPaging hdvd hlt (by omega), if_neg (by omega), if_pos (by omega),
    Nat.add_sub_cancel_left]

theorem OnTables.seen (h : OnTables directory s₀ s)
    (hdvd : pageSize ∣ directory) (hlt : directory + 0x3000 ≤ 2 ^ 32)
    (hv : v < 0x800000) :
    Boot.seen s (kernelVirtualBase + v) = some (s.mem.byte v) := by
  rw [Boot.seen, h.walk hdvd hlt hv, Option.map_some]

/-- The loop stores what it is told, and leaves the tables alone. -/
theorem OnTables.repStosb (h : OnTables directory s₀ s)
    (hdvd : pageSize ∣ directory) (hlt : directory + 0x3000 ≤ 2 ^ 32)
    (hn : edi + n ≤ 0x800000)
    (hapart : Disjoint (Set.Ico edi (edi + n)) (tables directory)) :
    ∃ s', Boot.repStosb al n (kernelVirtualBase + edi) s = some s' ∧
      OnTables directory s₀ s' ∧
      ∀ p, s'.mem.byte p =
        if edi ≤ p ∧ p < edi + n then UInt8.ofNat al else s.mem.byte p := by
  induction n generalizing edi s with
  | zero =>
      refine ⟨s, rfl, h, fun p => ?_⟩
      rw [if_neg (by omega)]
  | succ n ih =>
      have hfirst : edi ∉ tables directory :=
        Set.disjoint_left.mp hapart ⟨le_rfl, by omega⟩
      have hstored : OnTables directory s₀
          { s with mem := s.mem.store8 edi al } :=
        ⟨h.same.store8 hfirst, h.current⟩
      obtain ⟨s', hloop, htables, hbyte⟩ := @ih (edi + 1) _ hstored
        (by omega) (hapart.mono_left (Set.Ico_subset_Ico (by omega) (by omega)))
      refine ⟨s', ?_, htables, fun p => ?_⟩
      · rw [Boot.repStosb, storeByte, h.walk hdvd hlt (by omega), Option.map_some,
          Option.bind_some]
        exact hloop
      · rw [hbyte]
        change (if _ then _ else if p = edi then _ else _) = _
        split_ifs <;> first | rfl | omega

theorem onTables_enterPaging (directory : ℕ) (s : State σ) :
    OnTables directory s (enterPaging directory s) :=
  ⟨SameOn.refl _ _, rfl⟩

/-- `_start` comes back: the uninitialised data is zero, and below the screen
nothing else but the tables has changed. -/
theorem LinkedAt.start_eq (h : LinkedAt kernel directory bssStart bssEnd)
    (s : State σ) :
    ∃ s', Boot.start directory bssStart bssEnd s = some s' ∧
      OnTables directory { s with mem := showLetter s.mem } s' ∧
      ∀ p < 0xB8000, p ∉ tables directory → s'.mem.byte p =
        if bssStart ≤ kernelVirtualBase + p ∧ kernelVirtualBase + p < bssEnd
        then 0 else s.mem.byte p := by
  have hle := h.directory_le
  obtain ⟨hdvd, -, htablesEnd, hbss, hbssLe, hbssEnd⟩ := h
  have hbase : kernelVirtualBase = 0xC0000000 := rfl
  obtain ⟨edi, rfl⟩ := Nat.exists_eq_add_of_le
    ((Nat.le_add_right _ 0x10000).trans ((Nat.le_add_right _ _).trans hbss))
  obtain ⟨n, rfl⟩ := Nat.exists_eq_add_of_le hbssLe
  have hcount : sub32 (kernelVirtualBase + edi + n) (kernelVirtualBase + edi) =
      n := by
    rw [sub32_eq_of_le (by omega) (by omega)]
    omega
  have hapart : Disjoint (Set.Ico edi (edi + n)) (tables directory) := by
    refine Set.disjoint_left.mpr fun x hx hin => ?_
    simp only [tables, Set.mem_Ico] at hx hin
    omega
  obtain ⟨s', hloop, hon, hbyte⟩ := @OnTables.repStosb σ directory n 0 edi _ _
    (onTables_enterPaging directory { s with mem := showLetter s.mem }) hdvd
    (by omega) (by omega) hapart
  refine ⟨s', ?_, hon, fun p hp hout => ?_⟩
  · rw [Boot.start, hcount]
    exact hloop
  · have hscreen : (showLetter s.mem).byte p = s.mem.byte p :=
      (byte_store8_of_ne (by omega)).trans (byte_store8_of_ne (by omega))
    rw [hbyte, sameOn_enterPaging directory _ p hout, ← hscreen]
    apply if_congr _ rfl rfl
    omega

theorem FilesAt.start (h : FilesAt s.mem stage2 kernel initrd)
    (hlink : LinkedAt kernel directory bssStart bssEnd)
    (hinitrd : initrd.length ≤ 0x40000) :
    ∃ s', Boot.start directory bssStart bssEnd s = some s' ∧
      Entered s' kernel initrd directory bssStart bssEnd := by
  have hle := hlink.directory_le
  have hlt : directory + 0x3000 ≤ 2 ^ 32 := by omega
  obtain ⟨s', hstart, hon, hbyte⟩ := hlink.start_eq s
  obtain ⟨hdvd, -, htablesEnd, hbss, hbssLe, hbssEnd⟩ := hlink
  have hbase : kernelVirtualBase = 0xC0000000 := rfl
  refine ⟨s', hstart, fun i hi hout => ?_, fun i hi => ?_, fun v hlo hhi => ?_⟩
  · rw [Nat.add_assoc, hon.seen hdvd hlt (by omega), hbyte _ (by omega) hout,
      if_neg (by omega), h.kernel i hi]
  · have hout : 0x40000 + i ∉ tables directory := by
      rw [tables, Set.mem_Ico]
      omega
    rw [Nat.add_assoc, hon.seen hdvd hlt (by omega), hbyte _ (by omega) hout,
      if_neg (by omega), h.initrd i hi]
  · obtain ⟨p, rfl⟩ := Nat.exists_eq_add_of_le
      ((Nat.le_add_right _ 0x10000).trans
        ((Nat.le_add_right _ _).trans (hbss.trans hlo)))
    have hout : p ∉ tables directory := by
      rw [tables, Set.mem_Ico]
      omega
    rw [hon.seen hdvd hlt (by omega), hbyte _ (by omega) hout,
      if_pos ⟨hlo, hhi⟩]

end Entry

/-! ## From the disk to the kernel -/

/-- Whatever the files are, if they fit and are read from one drive: both stages
of the boot loader come back, and `_start` reaches `kmain` without a page fault.
The kernel then sees its own file and the ramdisk at the addresses that it is
linked for, and its uninitialised data is zero. -/
theorem bootLoader_entered {vbe : Regs → Option Regs} {bios : Bios}
    (dap : BitVec 16) (m : Machine) (disks : Disks)
    {boot stage2 kernel initrd : List UInt8} {directory bssStart bssEnd : ℕ}
    (hdisk : OnDrive disks (low m.regs.dx) boot stage2 kernel initrd)
    (hbios : bios.Serves) (hchs : bios.ServesChs) (hvbe : ∀ r, (vbe r).isSome)
    (hlink : LinkedAt kernel directory bssStart bssEnd) (g : Geometry) :
    ∃ q m' requests, (∀ fuel, 512 < fuel → bootLoader vbe bios dap
        (BitVec.ofNat 16 (sectorsOf kernel)) (BitVec.ofNat 16 (sectorsOf initrd))
        fuel m = some (q, m')) ∧
      m'.requests = m.requests ++ requests ∧
      ∀ {σ : Type*} (s : State σ), ∃ s', start directory bssStart bssEnd
          { s with mem := transfers disks (q.request g :: requests) s.mem } =
            some s' ∧
        Entered s' kernel initrd directory bssStart bssEnd := by
  obtain ⟨q, m', requests, hloads, hrequests, hfiles⟩ :=
    @OnDrive.bootLoader_reads vbe bios dap m disks _ boot stage2 kernel initrd
      hdisk hbios hchs hvbe rfl g
  refine ⟨q, m', requests, hloads, hrequests, fun s => ?_⟩
  exact FilesAt.start (s := { s with
    mem := transfers disks (q.request g :: requests) s.mem }) (hfiles s.mem)
      hlink hdisk.initrd_le

/-! ## A disk -/

/-- Every drive holds the image. -/
def imageDisks (image : List UInt8) : Disks := fun _ i => image.getD i 0

/-- An image with a kernel of 64 sectors and a ramdisk of one byte. -/
def exampleImage : List UInt8 :=
  osImage (List.replicate 512 0) [] (List.replicate 0x8000 0x90) [0xBF]

theorem servesChs_plainBios : plainBios.ServesChs := by
  intro requests r hah
  refine ⟨r.ax, rfl, if_neg ?_⟩
  rw [show r.ah = 0x02 from hah]
  decide

theorem onDrive_exampleImage (drive : BitVec 8) :
    OnDrive (imageDisks exampleImage) drive (List.replicate 512 0) []
      (List.replicate 0x8000 0x90) [0xBF] := by
  refine ⟨fun i hi => ?_, ?_, ?_, ?_, Or.inl ?_⟩
  · exact List.getD_eq_getElem _ _ hi
  · rw [List.length_replicate, sectorSize]
  · rw [List.length_replicate]
    decide
  · decide
  · rw [sectorsOf, List.length_replicate]
    decide

theorem linkedAt_exampleImage :
    LinkedAt (List.replicate 0x8000 0x90) 0x11000 0xC0018000 0xC0019000 := by
  constructor <;> (try rw [List.length_replicate]) <;> decide

/-- The kernel of the example sees the ramdisk. -/
theorem bootLoader_entered_exampleImage :
    ∃ q m' requests, bootLoader some plainBios 0x7F00 64 1 513 (callFor 0) =
        some (q, m') ∧
      ∃ s', start 0x11000 0xC0018000 0xC0019000
          { blankState with
            mem := transfers (imageDisks exampleImage)
              (q.request ⟨16, 63⟩ :: requests) blankState.mem } = some s' ∧
        seen s' 0xC0040000 = some 0xBF := by
  have hvbe : ∀ r : Regs, (some r).isSome := fun _ => rfl
  obtain ⟨q, m', requests, hloads, -, hentered⟩ := bootLoader_entered 0x7F00
    (callFor 0) (imageDisks exampleImage) (onDrive_exampleImage _)
    serves_plainBios servesChs_plainBios hvbe linkedAt_exampleImage ⟨16, 63⟩
  obtain ⟨s', hstart, hseen⟩ := hentered blankState
  refine ⟨q, m', requests, ?_, s', hstart, hseen.initrd 0 (by decide)⟩
  have hkernel : sectorsOf (List.replicate 0x8000 0x90) = 64 := by
    rw [sectorsOf, List.length_replicate]
  have hrun := hloads 513 (by decide)
  rw [hkernel] at hrun
  exact hrun

end BabOs.Boot
