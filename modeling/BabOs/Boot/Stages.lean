import BabOs.Boot.Transfers

/-!
# The two stages of the boot loader

`stage1.asm` reads the second stage by cylinder, head and sector, and
`stage2.asm` reads the kernel and the ramdisk with `disk_load_lba`.  What they
print and the graphics mode are left out, except that the calls for the mode
may lose any register.
-/

namespace BabOs.Boot

open Memory

/-! ## Halves of a register -/

def low (v : BitVec 16) : BitVec 8 := BitVec.ofNat 8 v.toNat

def high (v : BitVec 16) : BitVec 8 := BitVec.ofNat 8 (v.toNat / 256)

def withLow (v : BitVec 16) (b : BitVec 8) : BitVec 16 :=
  BitVec.ofNat 16 (v.toNat / 256 * 256 + b.toNat)

def withHigh (v : BitVec 16) (b : BitVec 8) : BitVec 16 :=
  BitVec.ofNat 16 (b.toNat * 256 + v.toNat % 256)

section Halves

variable (v : BitVec 16) (b : BitVec 8)

@[simp] theorem low_withLow : low (withLow v b) = b := by
  have hb := b.isLt
  apply BitVec.eq_of_toNat_eq
  rw [low, withLow, BitVec.toNat_ofNat, BitVec.toNat_ofNat]
  omega

@[simp] theorem high_withLow : high (withLow v b) = high v := by
  have hb := b.isLt
  have hv := v.isLt
  rw [high, high, withLow, BitVec.toNat_ofNat]
  congr 1
  omega

@[simp] theorem low_withHigh : low (withHigh v b) = low v := by
  have hb := b.isLt
  apply BitVec.eq_of_toNat_eq
  rw [low, low, withHigh, BitVec.toNat_ofNat, BitVec.toNat_ofNat,
    BitVec.toNat_ofNat]
  omega

@[simp] theorem high_withHigh : high (withHigh v b) = b := by
  have hb := b.isLt
  apply BitVec.eq_of_toNat_eq
  rw [high, withHigh, BitVec.toNat_ofNat, BitVec.toNat_ofNat]
  omega

end Halves

/-! ## The first stage -/

/-- A read by cylinder, head and sector as the BIOS gets it. -/
structure ChsRequest where
  drive : BitVec 8
  count : BitVec 8
  cylinder : BitVec 8
  head : BitVec 8
  sector : BitVec 8
  offset : BitVec 16
  segment : BitVec 16

def Regs.chs (r : Regs) : ChsRequest where
  drive := low r.dx
  count := low r.ax
  cylinder := high r.cx
  head := high r.dx
  sector := low r.cx
  offset := r.bx
  segment := r.es

/-- `disk_load`, with the read that it makes; `none` stands for
`disk_load_error`, which does not return. -/
def diskLoad (bios : Bios) (m : Machine) : Option (ChsRequest × Machine) :=
  let m := m.pusha.push m.regs.dx
  let r := { m.regs with ax := withHigh m.regs.ax 0x02 }
  let r := { r with ax := withLow r.ax (high r.dx) }
  let r := { r with cx := withHigh r.cx 0x00, dx := withHigh r.dx 0x00 }
  let (carry, r') := bios m.requests r
  if carry then none
  else
    let (dx, m) := { m with regs := r' }.pop
    let m := { m with regs := { m.regs with dx := dx } }
    if low m.regs.ax = high m.regs.dx then some (r.chs, m.popa) else none

def stage2Offset : BitVec 16 := 0x7E00

/-- `stage1.asm`; the BIOS has left the drive in `dl`. -/
def stage1 (bios : Bios) (m : Machine) : Option (ChsRequest × Machine) :=
  let bootDrive := low m.regs.dx
  let r := { m.regs with ax := 0, ds := 0, es := 0, bx := stage2Offset }
  let r := { r with dx := withHigh r.dx 2 }
  let r := { r with dx := withLow r.dx bootDrive, cx := withLow r.cx 0x02 }
  diskLoad bios { m with regs := r }

/-! ## The second stage -/

section Second

variable (vbe : Regs → Option Regs) (bios : Bios) (dap : BitVec 16)

/-- `load_kernel` and `load_initrd`, for the values that they put into the
registers. -/
def load (segment sector sectors : BitVec 16) (bootDrive : BitVec 8)
    (fuel : ℕ) (m : Machine) : Option Machine :=
  let r := { m.regs with ax := 0, ds := 0 }
  let r := { r with ax := segment, es := segment, bx := 0 }
  let r := { r with dx := withLow r.dx bootDrive, ax := sector, cx := sectors }
  diskLoadLba bios dap fuel { m with regs := r }

def kernelLoadSeg : BitVec 16 := 0x1000

def initrdLoadSeg : BitVec 16 := 0x4000

/-- `load_kernel`, from `KERNEL_START_SECTOR` on -/
def loadKernel (kernelSectors : BitVec 16) :
    BitVec 8 → ℕ → Machine → Option Machine :=
  load bios dap kernelLoadSeg 4 kernelSectors

/-- `load_initrd`, from `INITRD_START_SECTOR` on -/
def loadInitrd (initrdSectors : BitVec 16) :
    BitVec 8 → ℕ → Machine → Option Machine :=
  load bios dap initrdLoadSeg 513 initrdSectors

/-- `stage2.asm` up to the switch to protected mode; `vbe` stands for the calls
that set the graphics mode and is `none` where they fail. -/
def stage2 (kernelSectors initrdSectors : BitVec 16) (fuel : ℕ) (m : Machine) :
    Option Machine := do
  let bootDrive := low m.regs.dx
  let r ← vbe { m.regs with ax := 0x9000, ds := 0, es := 0 }
  let m ← loadKernel bios dap kernelSectors bootDrive fuel { m with regs := r }
  loadInitrd bios dap initrdSectors bootDrive fuel m

def bootLoader (kernelSectors initrdSectors : BitVec 16) (fuel : ℕ)
    (m : Machine) : Option (ChsRequest × Machine) := do
  let (q, m) ← stage1 bios m
  let m ← stage2 vbe bios dap kernelSectors initrdSectors fuel m
  some (q, m)

end Second

/-! ## What the stages read -/

/-- A drive with `heads` heads and `track` sectors a track. -/
structure Geometry where
  heads : ℕ
  track : ℕ

/-- The number of the first sector. -/
def ChsRequest.lba (g : Geometry) (q : ChsRequest) : ℕ :=
  (q.cylinder.toNat * g.heads + q.head.toNat) * g.track + (q.sector.toNat - 1)

/-- A read as the extended function would be asked for it. -/
def ChsRequest.request (g : Geometry) (q : ChsRequest) : Request where
  drive := q.drive
  sectors := q.count.toNat
  offset := q.offset.toNat
  segment := q.segment.toNat
  lba := q.lba g

/-- A read by cylinder, head and sector succeeds, reads all sectors and loses
no register but `ah`. -/
def Bios.ServesChs (bios : Bios) : Prop :=
  ∀ requests r, high r.ax = 0x02 → ∃ ax, low ax = low r.ax ∧
    bios requests r = (false, { r with ax := ax })

section Stages

variable {vbe : Regs → Option Regs} {bios : Bios} {dap : BitVec 16}
  {m : Machine} {disks : Disks} {g : Geometry} {drive : BitVec 8}
  {segment sector sectors kernelSectors initrdSectors : BitVec 16} {r : Regs}

/-- The routine reads what its caller has put into the registers, and gives
them back. -/
theorem diskLoad_eq (hbios : bios.ServesChs) (m : Machine) :
    ∃ m', diskLoad bios m = some
        ({ m.regs with
            ax := withLow (withHigh m.regs.ax 0x02) (high m.regs.dx)
            cx := withHigh m.regs.cx 0x00
            dx := withHigh m.regs.dx 0x00 }.chs, m') ∧
      m'.regs.dx = m.regs.dx ∧ m'.requests = m.requests := by
  obtain ⟨ax, hlow, hread⟩ := hbios m.requests { m.regs with
      ax := withLow (withHigh m.regs.ax 0x02) (high m.regs.dx)
      cx := withHigh m.regs.cx 0x00
      dx := withHigh m.regs.dx 0x00 } (by simp)
  rw [low_withLow] at hlow
  simp only [diskLoad, Machine.pusha, Machine.push, hread, Machine.pop,
    List.headD_cons, hlow, if_true, Bool.false_eq_true, if_false]
  exact ⟨_, rfl, rfl, rfl⟩

/-- The first stage reads two sectors from the second one on. -/
theorem stage1_eq (hbios : bios.ServesChs) (m : Machine) :
    ∃ q m', stage1 bios m = some (q, m') ∧
      q.request g = ⟨low m.regs.dx, 2, 0x7E00, 0, 1⟩ ∧
      low m'.regs.dx = low m.regs.dx ∧ m'.requests = m.requests := by
  obtain ⟨m', hload, hdx, hrequests⟩ := diskLoad_eq hbios { m with
    regs := { m.regs with
      ax := 0
      ds := 0
      es := 0
      bx := stage2Offset
      dx := withLow (withHigh m.regs.dx 2) (low m.regs.dx)
      cx := withLow m.regs.cx 0x02 } }
  refine ⟨_, m', hload, ?_, ?_, hrequests⟩
  · simp [ChsRequest.request, ChsRequest.lba, Regs.chs, stage2Offset]
  · rw [hdx]
    exact low_withLow _ _

theorem load_reads (hbios : bios.Serves) (m : Machine)
    (hargs : Arguments { m.regs with
      ax := sector, bx := 0, cx := sectors, es := segment }) :
    ∃ m' requests, (∀ fuel, sectors.toNat < fuel →
        load bios dap segment sector sectors drive fuel m = some m') ∧
      m'.requests = m.requests ++ requests ∧
      Reads { m.regs with
        ax := sector
        bx := 0
        cx := sectors
        dx := withLow m.regs.dx drive
        ds := 0
        es := segment } requests :=
  diskLoadLba_reads hbios
    (m := { m with regs := { m.regs with
      ax := sector
      bx := 0
      cx := sectors
      dx := withLow m.regs.dx drive
      ds := 0
      es := segment } })
    ⟨hargs.sector, hargs.sectors, hargs.offset, hargs.memory⟩

end Stages

/-! ## Memory after the reads -/

/-- The drive that the system is started from holds the image, and the files
are small enough for the places that they are read to.  More than 64 sectors
are only read from drive `0`. -/
structure OnDrive (disks : Disks) (drive : BitVec 8)
    (boot stage2 kernel initrd : List UInt8) : Prop where
  image : disks.HasImage drive (osImage boot stage2 kernel initrd)
  length_boot : boot.length = sectorSize
  kernel_le : kernel.length ≤ 0x30000
  initrd_le : initrd.length ≤ 0x40000
  one : sectorsOf kernel ≤ 64 ∧ sectorsOf initrd ≤ 64 ∨ drive = 0

/-- The files are where the code expects them. -/
structure FilesAt (m : Memory) (stage2 kernel initrd : List UInt8) : Prop where
  stage2 : Holds m 0x7E00 (stage2.take 1024)
  kernel : Holds m 0x10000 kernel
  initrd : Holds m 0x40000 initrd

section Loading

variable {vbe : Regs → Option Regs} {bios : Bios} {dap : BitVec 16}
  {m : Machine} {disks : Disks} {drive : BitVec 8} {r : Regs}
  {boot stage2 kernel initrd file : List UInt8} {requests : List Request}
  {segment sector : BitVec 16} {mem : Memory} {S : Set ℕ}

theorem OnDrive.toNat_kernelSectors
    (h : OnDrive disks drive boot stage2 kernel initrd) :
    (BitVec.ofNat 16 (sectorsOf kernel)).toNat = sectorsOf kernel := by
  have hkernel := h.kernel_le
  rw [BitVec.toNat_ofNat, sectorsOf]
  omega

theorem OnDrive.toNat_initrdSectors
    (h : OnDrive disks drive boot stage2 kernel initrd) :
    (BitVec.ofNat 16 (sectorsOf initrd)).toNat = sectorsOf initrd := by
  have hinitrd := h.initrd_le
  rw [BitVec.toNat_ofNat, sectorsOf]
  omega

/-- A file that is read whole is in memory, and what lies apart from it is as
it was. -/
theorem Reads.holds (h : Reads r requests) (hone : r.cx.toNat ≤ 64 ∨ r.dl = 0)
    (hcx : r.cx.toNat = sectorsOf file) (hbx : r.bx = 0)
    (hfile : ∀ i (hi : i < file.length),
      disks r.dl (sectorSize * (r.ax.toNat - 1) + i) = file[i])
    (mem : Memory) :
    Holds (transfers disks requests mem) (r.es.toNat * 16) file ∧
      SameOn (Set.Ico (r.es.toNat * 16)
        (r.es.toNat * 16 + sectorSize * sectorsOf file))ᶜ mem
        (transfers disks requests mem) := by
  have hbyte : ∀ x, (transfers disks requests mem).byte x = _ :=
    h.byte_transfers hone mem
  have hlength := length_le_sectorsOf file
  have hzero : (0 : BitVec 16).toNat = 0 := rfl
  simp only [hcx, hbx, hzero, Nat.add_zero] at hbyte
  constructor
  · intro i hi
    rw [hbyte, if_pos (by omega), ← hfile i hi, Nat.add_sub_cancel_left]
  · intro x hx
    rw [Set.mem_compl_iff, Set.mem_Ico] at hx
    rw [hbyte, if_neg hx]

theorem load_holds (hbios : bios.Serves) (m : Machine)
    (hcount : (BitVec.ofNat 16 (sectorsOf file)).toNat = sectorsOf file)
    (hargs : Arguments { m.regs with
      ax := sector
      bx := 0
      cx := BitVec.ofNat 16 (sectorsOf file)
      es := segment })
    (hone : sectorsOf file ≤ 64 ∨ drive = 0)
    (hfile : ∀ i (hi : i < file.length),
      disks drive (sectorSize * (sector.toNat - 1) + i) = file[i]) :
    ∃ m' requests, (∀ fuel, sectorsOf file < fuel →
        load bios dap segment sector (BitVec.ofNat 16 (sectorsOf file)) drive
          fuel m = some m') ∧
      m'.requests = m.requests ++ requests ∧
      ∀ mem, Holds (transfers disks requests mem) (segment.toNat * 16) file ∧
        SameOn (Set.Ico (segment.toNat * 16)
          (segment.toNat * 16 + sectorSize * sectorsOf file))ᶜ mem
          (transfers disks requests mem) := by
  obtain ⟨m', requests, hload, hrequests, hreads⟩ :=
    @load_reads bios dap drive segment sector _ hbios m hargs
  rw [hcount] at hload
  have hdl : low (withLow m.regs.dx drive) = drive := low_withLow _ _
  refine ⟨m', requests, hload, hrequests, hreads.holds ?_ hcount rfl ?_⟩
  · change (BitVec.ofNat 16 (sectorsOf file)).toNat ≤ 64 ∨
      low (withLow m.regs.dx drive) = 0
    rw [hcount, hdl]
    exact hone
  · change ∀ i (hi : i < file.length), disks (low (withLow m.regs.dx drive))
      (sectorSize * (sector.toNat - 1) + i) = file[i]
    rw [hdl]
    exact hfile

theorem OnDrive.bytes (h : OnDrive disks drive boot stage2 kernel initrd) :
    (∀ i (hi : i < (stage2.take 1024).length),
        disks drive (sectorSize * 1 + i) = (stage2.take 1024)[i]) ∧
      (∀ i (hi : i < kernel.length),
        disks drive (sectorSize * 3 + i) = kernel[i]) ∧
      ∀ i (hi : i < initrd.length),
        disks drive (sectorSize * 512 + i) = initrd[i] := by
  have hkernel := h.kernel_le
  obtain ⟨hstage, hkernel, hinitrd⟩ :=
    h.image.files h.length_boot (by omega) h.initrd_le
  refine ⟨fun i hi => ?_, hkernel, hinitrd⟩
  rw [List.length_take] at hi
  rw [hstage i (by omega) (by omega), List.getElem_take]

theorem OnDrive.holds_stage2 (h : OnDrive disks drive boot stage2 kernel initrd)
    (mem : Memory) :
    Holds (Request.transfer disks mem ⟨drive, 2, 0x7E00, 0, 1⟩) 0x7E00
        (stage2.take 1024) ∧
      SameOn (Set.Ico 0x7E00 0x8200)ᶜ mem
        (Request.transfer disks mem ⟨drive, 2, 0x7E00, 0, 1⟩) := by
  have hstart : Request.start ⟨drive, 2, 0x7E00, 0, 1⟩ = 0x7E00 := by
    simp [Request.start]
  have hend : 0x7E00 + sectorSize * 2 = 0x8200 := by
    rw [sectorSize]
  simp only [Request.transfer, hstart, hend]
  constructor
  · intro i hi
    have hle := List.length_take_le 1024 stage2
    rw [← h.bytes.1 i hi]
    dsimp only
    rw [if_pos (by omega), Nat.add_sub_cancel_left]
  · intro x hx
    rw [Set.mem_compl_iff, Set.mem_Ico] at hx
    dsimp only
    rw [if_neg hx]

/-- The kernel and the ramdisk, read one after the other. -/
theorem OnDrive.stage2_reads (h : OnDrive disks drive boot stage2 kernel initrd)
    (hbios : bios.Serves) (hvbe : ∀ r, (vbe r).isSome)
    (hdrive : low m.regs.dx = drive) :
    ∃ m' requests, (∀ fuel, 512 < fuel → Boot.stage2 vbe bios dap
        (BitVec.ofNat 16 (sectorsOf kernel)) (BitVec.ofNat 16 (sectorsOf initrd))
        fuel m = some m') ∧
      m'.requests = m.requests ++ requests ∧
      ∀ mem, Holds (transfers disks requests mem) 0x10000 kernel ∧
        Holds (transfers disks requests mem) 0x40000 initrd ∧
        SameOn (Set.Ico 0x10000 0x80000)ᶜ mem (transfers disks requests mem) := by
  have hkernel := h.toNat_kernelSectors
  have hinitrd := h.toNat_initrdSectors
  have hks : sectorsOf kernel ≤ 384 := sectorsOf_le h.kernel_le
  have his : sectorsOf initrd ≤ 512 := sectorsOf_le h.initrd_le
  have hone := h.one
  obtain ⟨-, hkernelFile, hinitrdFile⟩ := h.bytes
  have hsegments : kernelLoadSeg.toNat = 0x1000 ∧ initrdLoadSeg.toNat = 0x4000 :=
    ⟨rfl, rfl⟩
  have hsectors : (4 : BitVec 16).toNat = 4 ∧ (513 : BitVec 16).toNat = 513 :=
    ⟨rfl, rfl⟩
  have hzero : (0 : BitVec 16).toNat = 0 := rfl
  obtain ⟨r, hr⟩ := Option.isSome_iff_exists.mp
    (hvbe { m.regs with ax := 0x9000, ds := 0, es := 0 })
  obtain ⟨m₁, first, hload₁, hrequests₁, hfirst⟩ :=
    @load_holds bios dap disks drive kernel kernelLoadSeg 4 hbios
      { m with regs := r } hkernel (by constructor <;> dsimp only <;> omega)
      (hone.imp_left And.left) hkernelFile
  obtain ⟨m₂, second, hload₂, hrequests₂, hsecond⟩ :=
    @load_holds bios dap disks drive initrd initrdLoadSeg 513 hbios m₁ hinitrd
      (by constructor <;> dsimp only <;> omega) (hone.imp_left And.right)
      hinitrdFile
  refine ⟨m₂, first ++ second, fun fuel hfuel => ?_, ?_, fun mem => ?_⟩
  · rw [Boot.stage2, hr, Option.bind_eq_bind, Option.bind_some, hdrive, loadKernel,
      hload₁ fuel (by omega), Option.bind_eq_bind, Option.bind_some, loadInitrd]
    exact hload₂ fuel (by omega)
  · rw [hrequests₂, hrequests₁, List.append_assoc]
  · obtain ⟨hkernelAt, hsame₁⟩ := hfirst mem
    obtain ⟨hinitrdAt, hsame₂⟩ := hsecond (transfers disks first mem)
    have hkernelStart : kernelLoadSeg.toNat * 16 = 0x10000 := rfl
    have hinitrdStart : initrdLoadSeg.toNat * 16 = 0x40000 := rfl
    rw [hkernelStart] at hkernelAt hsame₁
    rw [hinitrdStart] at hinitrdAt hsame₂
    have hlength := h.kernel_le
    rw [transfers, List.foldl_append, ← transfers, ← transfers]
    refine ⟨hkernelAt.congr hsame₂ fun x hx => ?_, hinitrdAt,
      (hsame₁.mono fun x hx => ?_).trans (hsame₂.mono fun x hx => ?_)⟩ <;>
    · simp only [Set.mem_compl_iff, Set.mem_Ico, sectorSize] at hx ⊢
      omega

/-- Both stages come back, and the files are where the code expects them. -/
theorem OnDrive.bootLoader_reads
    (h : OnDrive disks drive boot stage2 kernel initrd) (hbios : bios.Serves)
    (hchs : bios.ServesChs) (hvbe : ∀ r, (vbe r).isSome)
    (hdrive : low m.regs.dx = drive) (g : Geometry) :
    ∃ q m' requests, (∀ fuel, 512 < fuel → bootLoader vbe bios dap
        (BitVec.ofNat 16 (sectorsOf kernel)) (BitVec.ofNat 16 (sectorsOf initrd))
        fuel m = some (q, m')) ∧
      m'.requests = m.requests ++ requests ∧
      ∀ mem, FilesAt (transfers disks (q.request g :: requests) mem)
        stage2 kernel initrd := by
  obtain ⟨q, m₁, hstage1, hq, hdl, hrequests₁⟩ := @stage1_eq bios g hchs m
  obtain ⟨m₂, requests, hstage2, hrequests₂, hreads⟩ :=
    @OnDrive.stage2_reads vbe bios dap m₁ disks drive boot stage2 kernel initrd h
      hbios hvbe (hdl.trans hdrive)
  refine ⟨q, m₂, requests, fun fuel hfuel => ?_, ?_, fun mem => ?_⟩
  · simp only [bootLoader, hstage1, hstage2 fuel hfuel, Option.bind_eq_bind,
      Option.bind_some]
  · rw [hrequests₂, hrequests₁]
  · rw [transfers, List.foldl_cons, ← transfers, hq, hdrive]
    obtain ⟨hstage, -⟩ := h.holds_stage2 mem
    obtain ⟨hkernel, hinitrd, hsame⟩ :=
      hreads (Request.transfer disks mem ⟨drive, 2, 0x7E00, 0, 1⟩)
    refine ⟨hstage.congr hsame fun x hx => ?_, hkernel, hinitrd⟩
    have hle := List.length_take_le 1024 stage2
    simp only [Set.mem_compl_iff, Set.mem_Ico] at hx ⊢
    omega

end Loading

end BabOs.Boot
