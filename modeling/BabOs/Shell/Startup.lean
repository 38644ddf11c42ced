import BabOs.Boot.Entry
import BabOs.Shell.Runs

/-!
# From the disk to the shell

The boot loader reads the kernel and the ramdisk, `_start` maps them, and
`kmain` mounts the ramdisk.  What the packer has put into the ramdisk is what
the shell shows.
-/

namespace BabOs.Shell

open Memory Initrd Kheap Fuel

/-! ## The kernel's file -/

/-- The file holds the string constants, apart from the page tables, and the
directory entry of `initrd_readdir` is uninitialised data. -/
structure LinkedShell (link : Link) (kernel : List UInt8)
    (directory bssStart bssEnd : ℕ) : Prop extends
    Boot.LinkedAt kernel directory bssStart bssEnd where
  literal : ∀ l : Literal, ∃ k,
    link.literal l = Boot.kernelVirtualBase + 0x10000 + k ∧
      k + l.text.length < kernel.length ∧
      Disjoint (Set.Ico (0x10000 + k) (0x10000 + k + (l.text.length + 1)))
        (Boot.tables directory) ∧
      ∀ i ≤ l.text.length, kernel.getD (k + i) 0 = l.text.getD i 0
  entry : link.entry ⊆ Set.Ico bssStart bssEnd

def view {σ : Type*} (b : Vmm.State σ) : Memory where
  byte := fun v => (Boot.seen b v).getD 0
  stores := []

/-- The string constants and the ramdisk. -/
def Link.image (link : Link) (initrd : List UInt8) : Set ℕ :=
  link.constants ∪ Set.Ico initrdLocation (initrdLocation + initrd.length)

theorem Literal.zero_notMem_text (l : Literal) : 0 ∉ l.text := by
  cases l <;> decide

section Startup

variable {τ : Type*} {σ : Type} {link : Link} {kernel initrd : List UInt8}
  {directory bssStart bssEnd fuel : ℕ} {b : Vmm.State τ} {m : Memory}
  {files : List File}

theorem byte_view {v : ℕ} {x : UInt8} (h : Boot.seen b v = some x) :
    (view b).byte v = x := by
  change (Boot.seen b v).getD 0 = x
  rw [h, Option.getD_some]

theorem LinkedShell.constants_subset
    (h : LinkedShell link kernel directory bssStart bssEnd) :
    link.constants ⊆ Set.Ico (Boot.kernelVirtualBase + 0x10000) bssStart := by
  refine Set.iUnion_subset fun l => ?_
  obtain ⟨k, haddr, hlt, -, -⟩ := h.literal l
  have hend : Boot.kernelVirtualBase + 0x10000 + k + (l.text.length + 1) ≤
      bssStart := by
    refine le_trans ?_ h.bss_start
    rw [Nat.add_assoc _ k]
    exact Nat.add_le_add_left hlt _
  rw [haddr]
  exact Set.Ico_subset_Ico (Nat.le_add_right _ _) hend

theorem LinkedShell.reads (h : LinkedShell link kernel directory bssStart bssEnd)
    (hentered : Boot.Entered b kernel initrd directory bssStart bssEnd)
    (hsame : SameOn (link.image initrd) (view b) m) (l : Literal) :
    (Str.ptr (link.literal l)).Reads m l.text := by
  obtain ⟨k, haddr, hlt, hapart, hbytes⟩ := h.literal l
  refine ⟨fun i hi => ?_, l.zero_notMem_text⟩
  have hin : link.literal l + i ∈ link.image initrd := by
    apply Or.inl
    apply link.literal_subset_constants l
    exact ⟨Nat.le_add_right _ _, by omega⟩
  have hout : 0x10000 + (k + i) ∉ Boot.tables directory :=
    Set.disjoint_left.mp hapart ⟨by omega, by omega⟩
  have hseen := hentered.kernel (k + i) (by omega) hout
  have haddr' : link.literal l + i =
      Boot.kernelVirtualBase + 0x10000 + (k + i) := by
    rw [haddr, Nat.add_assoc]
  change m.byte (link.literal l + i) = _
  rw [hsame _ hin, haddr', byte_view hseen, ← hbytes i hi, List.getD_eq_getElem]

/-- The nodes of an image that the boot loader reads fit into the heap. -/
theorem nodes_le_of_packed (hpacked : mkinitrd files = some initrd)
    (hinitrd : initrd.length ≤ 0x40000) :
    VfsNode.size * (files.length + 2) + stackSize + 8 * headerSize ≤
      kheapInitialSize - headerSize := by
  rw [length_image hpacked, offsetFrom] at hinitrd
  rw [show VfsNode.size = 184 from rfl, show stackSize = 4096 from rfl,
    show headerSize = 20 from rfl, show kheapInitialSize = 0x100000 from rfl]
  omega

theorem LinkedShell.loaded
    (h : LinkedShell link kernel directory bssStart bssEnd)
    (hentered : Boot.Entered b kernel initrd directory bssStart bssEnd)
    (hsame : SameOn (link.image initrd) (view b) m)
    (hpacked : mkinitrd files = some initrd) (hinitrd : initrd.length ≤ 0x40000) :
    Loaded link files initrd m := by
  have hbase : Boot.kernelVirtualBase = 0xC0000000 := rfl
  have hlocation : initrdLocation = Boot.kernelVirtualBase + 0x40000 := rfl
  have hheap : kheapStart = 0xD0000000 := rfl
  have hconstants := h.constants_subset
  have hentry := h.entry
  have hle := h.bss_le
  have hend := h.bss_end
  refine ⟨hpacked, fun i hi => ?_, by omega,
    nodes_le_of_packed hpacked hinitrd, h.reads hentered hsame,
    fun a ha => ?_, fun a ha => ?_, ?_, ?_, ?_⟩
  · rw [hsame _ (Or.inr ⟨Nat.le_add_right _ _, Nat.add_lt_add_left hi _⟩),
      hlocation, byte_view (hentered.initrd i hi)]
  · have hlt := (hconstants ha).2
    exact show a < kheapStart by omega
  · have hlt := (hentry ha).2
    exact show a < kheapStart by omega
  · refine Set.disjoint_left.mpr fun a ha hin => ?_
    have hlt := (hconstants ha).2
    have hge := hin.1
    omega
  · refine Set.disjoint_left.mpr fun a hin ha => ?_
    have hlt := (hentry ha).2
    have hge := hin.1
    omega
  · refine Set.disjoint_left.mpr fun a ha hin => ?_
    have hlt := (hconstants ha).2
    have hge := (hentry hin).1
    omega

end Startup

/-! ## A kernel on a disk -/

end BabOs.Shell
