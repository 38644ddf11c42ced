import BabOs.Boot.DiskLoad
import BabOs.Library.Strings

/-!
# The disk image

The Makefile puts the boot sector, the second stage, the kernel and the ramdisk
one after the other into one image.  This module says what the image holds at
each sector, and what a series of reads that abut brings into memory.
-/

namespace BabOs.Boot

open Memory

def sectorSize : ℕ := 512

/-! ## The image -/

/-- `truncate -s n` -/
def truncate (n : ℕ) (bytes : List UInt8) : List UInt8 :=
  bytes.take n ++ List.replicate (n - bytes.length) 0

/-- `os-image.bin` -/
def osImage (boot stage2 kernel initrd : List UInt8) : List UInt8 :=
  truncate 524288
    (truncate 262144 (boot ++ truncate 1024 stage2 ++ kernel) ++ initrd)

/-- The number of sectors that the Makefile passes to the assembler. -/
def sectorsOf (bytes : List UInt8) : ℕ := (bytes.length + 511) / 512

/-- The bytes of each drive. -/
abbrev Disks := BitVec 8 → ℕ → UInt8

def Disks.HasImage (disks : Disks) (drive : BitVec 8) (image : List UInt8) :
    Prop :=
  ∀ i (hi : i < image.length), disks drive i = image[i]

section Image

variable {boot stage2 kernel initrd bytes part : List UInt8} {n i : ℕ}
  {disks : Disks} {drive : BitVec 8}

@[simp] theorem length_truncate : (truncate n bytes).length = n := by
  rw [truncate, List.length_append, List.length_take, List.length_replicate]
  omega

theorem truncate_of_le (h : bytes.length ≤ n) :
    truncate n bytes = bytes ++ List.replicate (n - bytes.length) 0 := by
  rw [truncate, List.take_of_length_le h]

theorem length_le_sectorsOf (bytes : List UInt8) :
    bytes.length ≤ sectorSize * sectorsOf bytes := by
  rw [sectorSize, sectorsOf]
  omega

theorem sectorsOf_le {k : ℕ} (h : bytes.length ≤ sectorSize * k) :
    sectorsOf bytes ≤ k := by
  rw [sectorSize] at h
  rw [sectorsOf]
  omega

theorem osImage_eq (hboot : boot.length = sectorSize)
    (hkernel : kernel.length ≤ 260608) (hinitrd : initrd.length ≤ 262144) :
    osImage boot stage2 kernel initrd =
      boot ++ (truncate 1024 stage2 ++ (kernel ++
        (List.replicate (260608 - kernel.length) 0 ++ (initrd ++
          List.replicate (262144 - initrd.length) 0)))) := by
  rw [sectorSize] at hboot
  have hfront : (boot ++ truncate 1024 stage2 ++ kernel).length =
      1536 + kernel.length := by
    simp only [List.length_append, length_truncate, hboot]
  rw [osImage, truncate_of_le (n := 262144) (by omega), hfront,
    truncate_of_le (by simp [hboot]; omega)]
  have hpad : 262144 - (1536 + kernel.length) = 260608 - kernel.length := by
    omega
  have hend : 524288 - (boot ++ truncate 1024 stage2 ++ kernel ++
      List.replicate (262144 - (1536 + kernel.length)) 0 ++ initrd).length =
        262144 - initrd.length := by
    simp [hboot]
    omega
  rw [hend, hpad]
  simp only [List.append_assoc]

/-- A part that the image has at `n` is on the drive. -/
theorem Disks.HasImage.byte_part {before after : List UInt8}
    (h : disks.HasImage drive (before ++ (part ++ after)))
    (hn : before.length = n) (hi : i < part.length) :
    disks drive (n + i) = part[i] := by
  have hlt : n + i < (before ++ (part ++ after)).length := by
    rw [List.length_append, List.length_append]
    omega
  rw [h _ hlt]
  simp only [← hn, List.getElem_append_right (Nat.le_add_right _ i),
    Nat.add_sub_cancel_left, List.getElem_append_left hi]

/-- The files lie on the disk where the loader looks for them: the second stage
from sector `1` on, the kernel from sector `3` on and the ramdisk from sector
`512` on. -/
theorem Disks.HasImage.files (h : disks.HasImage drive
    (osImage boot stage2 kernel initrd)) (hboot : boot.length = sectorSize)
    (hkernel : kernel.length ≤ 260608) (hinitrd : initrd.length ≤ 262144) :
    (∀ i (hi : i < stage2.length), i < 1024 →
        disks drive (sectorSize * 1 + i) = stage2[i]) ∧
      (∀ i (hi : i < kernel.length),
        disks drive (sectorSize * 3 + i) = kernel[i]) ∧
      ∀ i (hi : i < initrd.length),
        disks drive (sectorSize * 512 + i) = initrd[i] := by
  rw [osImage_eq hboot hkernel hinitrd] at h
  rw [sectorSize] at hboot ⊢
  refine ⟨fun i hi hlt => ?_, fun i hi => ?_, fun i hi => ?_⟩
  · have hi' : i < (truncate 1024 stage2).length := by rwa [length_truncate]
    rw [h.byte_part hboot hi']
    simp only [truncate]
    rw [List.getElem_append_left (by rw [List.length_take]; omega),
      List.getElem_take]
  · rw [← List.append_assoc] at h
    refine h.byte_part ?_ hi
    rw [List.length_append, length_truncate, hboot]
  · rw [← List.append_assoc, ← List.append_assoc, ← List.append_assoc] at h
    refine h.byte_part ?_ hi
    simp only [List.length_append, length_truncate, List.length_replicate, hboot]
    omega

end Image

/-! ## Reads -/

/-- Where the sectors go. -/
def Request.start (q : Request) : ℕ := q.segment * 16 + q.offset

def Request.transfer (disks : Disks) (m : Memory) (q : Request) : Memory where
  byte := fun a =>
    if q.start ≤ a ∧ a < q.start + sectorSize * q.sectors then
      disks q.drive (sectorSize * q.lba + (a - q.start))
    else m.byte a
  stores := (q.start, sectorSize * q.sectors) :: m.stores

def transfers (disks : Disks) (requests : List Request) (m : Memory) : Memory :=
  requests.foldl (Request.transfer disks) m

section Transfers

variable {α : Type*} {start length : α → ℕ} {lo hi n a x lba : ℕ} {xs : List α}
  {disks : Disks} {drive : BitVec 8} {requests : List Request} {r : Regs}
  {m : Memory}

theorem Abut.le (h : Abut start length lo xs hi) : lo ≤ hi := by
  induction xs generalizing lo with
  | nil => exact h.le
  | cons x xs ih => exact (Nat.le_add_right _ _).trans (ih h.2)

/-- Requests that abut on the disk and in memory copy one range. -/
theorem byte_transfers
    (hlba : Abut Request.lba Request.sectors lba requests (lba + n))
    (hmem : Abut Request.start (fun q => sectorSize * q.sectors) a requests
      (a + sectorSize * n))
    (hdrive : ∀ q ∈ requests, q.drive = drive) (m : Memory) (x : ℕ) :
    (transfers disks requests m).byte x =
      if a ≤ x ∧ x < a + sectorSize * n then
        disks drive (sectorSize * lba + (x - a))
      else m.byte x := by
  induction requests generalizing lba a n m with
  | nil =>
      obtain rfl : n = 0 := Nat.left_eq_add.mp hlba
      rw [if_neg (by omega)]
      rfl
  | cons q requests ih =>
      obtain ⟨rfl, hlba⟩ := hlba
      obtain ⟨rfl, hmem⟩ := hmem
      rw [List.forall_mem_cons] at hdrive
      obtain ⟨k, rfl⟩ : ∃ k, n = q.sectors + k :=
        Nat.exists_eq_add_of_le (Nat.add_le_add_iff_left.mp hlba.le)
      rw [← Nat.add_assoc] at hlba
      rw [Nat.mul_add, ← Nat.add_assoc] at hmem
      rw [transfers, List.foldl_cons, ← transfers, ih hlba hmem hdrive.2]
      simp only [Request.transfer, hdrive.1, Nat.mul_add]
      by_cases hrest : q.start + sectorSize * q.sectors ≤ x ∧
          x < q.start + sectorSize * q.sectors + sectorSize * k
      · rw [if_pos hrest, if_pos (by omega)]
        congr 1
        omega
      · rw [if_neg hrest]
        apply if_congr _ rfl rfl
        omega

/-- What a call of the routine brings into memory, when one drive is asked. -/
theorem Reads.byte_transfers (h : Reads r requests)
    (hone : r.cx.toNat ≤ 64 ∨ r.dl = 0) (m : Memory) (x : ℕ) :
    (transfers disks requests m).byte x =
      if r.es.toNat * 16 + r.bx.toNat ≤ x ∧
          x < r.es.toNat * 16 + r.bx.toNat + sectorSize * r.cx.toNat then
        disks r.dl (sectorSize * (r.ax.toNat - 1) +
          (x - (r.es.toNat * 16 + r.bx.toNat)))
      else m.byte x := by
  refine Boot.byte_transfers h.tiles.lba h.tiles.memory (fun q hq => ?_) m x
  apply mem_drives hone
  rw [← h.drives]
  exact List.mem_map_of_mem hq

end Transfers

end BabOs.Boot
