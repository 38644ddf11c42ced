import Mathlib.Tactic
import Mathlib.Data.List.Basic

/-!
# The boot disk loader

This module embeds `disk_load_lba` of `disk_load.asm`, register by register.
The loop keeps the sector, the count, the segment and the drive in registers
that it also uses as scratch.
-/

namespace BabOs.Boot

/-! ## The machine -/

/-- The registers that the routine uses; `bp` and `sp` come back as they
were. -/
structure Regs where
  ax : BitVec 16
  bx : BitVec 16
  cx : BitVec 16
  dx : BitVec 16
  si : BitVec 16
  di : BitVec 16
  ds : BitVec 16
  es : BitVec 16
  deriving DecidableEq

def Regs.ah (r : Regs) : BitVec 8 := BitVec.ofNat 8 (r.ax.toNat / 256)

def Regs.dl (r : Regs) : BitVec 8 := BitVec.ofNat 8 r.dx.toNat

/-- `mov ah, v` -/
def Regs.setAh (r : Regs) (v : BitVec 8) : Regs :=
  { r with ax := BitVec.ofNat 16 (v.toNat * 256 + r.ax.toNat % 256) }

/-- The disk address packet; `size` is the word of `dap_size` and
`dap_reserved`. -/
structure Packet where
  size : BitVec 16
  sectors : BitVec 16
  bufferOff : BitVec 16
  bufferSeg : BitVec 16
  lbaLow : BitVec 16
  lbaHigh : BitVec 16
  lbaUpper : BitVec 32
  deriving DecidableEq

/-- An extended read as the BIOS gets it. -/
structure Request where
  drive : BitVec 8
  sectors : ℕ
  offset : ℕ
  segment : ℕ
  lba : ℕ
  deriving DecidableEq

def Packet.request (p : Packet) (drive : BitVec 8) : Request where
  drive := drive
  sectors := p.sectors.toNat
  offset := p.bufferOff.toNat
  segment := p.bufferSeg.toNat
  lba := p.lbaLow.toNat + 2 ^ 16 * p.lbaHigh.toNat + 2 ^ 32 * p.lbaUpper.toNat

/-- `packets` holds the packet at each segment and offset, and `requests` the
extended reads made so far.  The sectors that are read are taken to lie apart
from the loader, its packet and its stack. -/
structure Machine where
  regs : Regs
  stack : List (BitVec 16)
  packets : BitVec 16 → BitVec 16 → Packet
  requests : List Request

/-- `int 0x13`: the carry flag and the registers afterwards. -/
abbrev Bios := List Request → Regs → Bool × Regs

namespace Machine

def push (m : Machine) (v : BitVec 16) : Machine :=
  { m with stack := v :: m.stack }

/-- The word on top of the stack, and the machine without it. -/
def pop (m : Machine) : BitVec 16 × Machine :=
  (m.stack.headD 0, { m with stack := m.stack.tail })

/-- `pusha`, for the registers of the model. -/
def pusha (m : Machine) : Machine :=
  { m with stack := [m.regs.di, m.regs.si, m.regs.bx, m.regs.dx, m.regs.cx,
      m.regs.ax] ++ m.stack }

/-- `popa` -/
def popa (m : Machine) : Machine :=
  match m.stack with
  | di :: si :: bx :: dx :: cx :: ax :: stack =>
      { m with
        stack := stack
        regs := { m.regs with
          ax := ax, bx := bx, cx := cx, dx := dx, si := si, di := di } }
  | _ => m

/-- `int 0x13`; an extended read is for the packet at `DS:SI`. -/
def int13 (bios : Bios) (m : Machine) : Bool × Machine :=
  let r := bios m.requests m.regs
  let requests :=
    if m.regs.ah = 0x42 then
      m.requests ++ [(m.packets m.regs.ds m.regs.si).request m.regs.dl]
    else m.requests
  (r.1, { m with regs := r.2, requests := requests })

end Machine

/-! ## The routine -/

section Routine

variable (bios : Bios) (dap : BitVec 16)

/-- The size of the next chunk, in `di`. -/
def chunk (cx : BitVec 16) : BitVec 16 := if cx ≤ 64 then cx else 64

/-- The body of `.read_loop`; `none` stands for `.error`, which does not
return. -/
def readChunk (m : Machine) : Option Machine :=
  let m := { m with regs := { m.regs with di := chunk m.regs.cx } }
  let m := (m.push m.regs.di).push m.regs.ax
  let packet : Packet :=
    { size := 0x0010
      sectors := m.regs.di
      bufferOff := m.regs.bx
      bufferSeg := m.regs.es
      lbaLow := m.regs.ax - 1
      lbaHigh := 0
      lbaUpper := 0 }
  let m := { m with
    packets := Function.update m.packets m.regs.ds
      (Function.update (m.packets m.regs.ds) dap packet)
    regs := { m.regs with ax := m.regs.ax - 1, si := dap } }
  let m := { m with regs := m.regs.setAh 0x42 }
  let (carry, m) := m.int13 bios
  if carry then none
  else
    let (ax, m) := m.pop
    let (di, m) := m.pop
    let dx := di <<< 5
    let si := m.regs.es + dx
    some { m with
      regs := { m.regs with
        ax := ax + di
        cx := m.regs.cx - di
        dx := dx
        si := si
        di := di
        es := si } }

/-- `.read_loop` -/
def readLoop : (fuel : ℕ) → Machine → Option Machine
  | 0, _ => none
  | fuel + 1, m =>
      if m.regs.cx = 0 then some m
      else (readChunk bios dap m).bind (readLoop fuel)

/-- The check for the extensions; `none` stands for `.no_extensions`, which
does not return. -/
def checkExtensions (m : Machine) : Option Machine :=
  let m := ((m.push m.regs.ax).push m.regs.bx).push m.regs.cx
  let m := { m with regs := { m.regs.setAh 0x41 with bx := 0x55AA } }
  let (carry, m) := m.int13 bios
  if carry ∨ m.regs.bx ≠ 0xAA55 then none
  else
    let (cx, m) := m.pop
    let (bx, m) := m.pop
    let (ax, m) := m.pop
    some { m with regs := { m.regs with ax := ax, bx := bx, cx := cx } }

def diskLoadLba (fuel : ℕ) (m : Machine) : Option Machine :=
  let m := m.pusha
  let m := { m with regs := { m.regs with si := 0, ds := 0 } }
  ((checkExtensions bios m).bind (readLoop bios dap fuel)).map Machine.popa

end Routine

/-! ## What is asked of the loader -/

/-- What the routine relies on: the extensions are there, reads succeed, and
no register is lost but `ax`, and `bx` and `cx` in the check. -/
structure Bios.Serves (bios : Bios) : Prop where
  check : ∀ requests r, r.ah = 0x41 → ∃ ax cx,
    bios requests r = (false, { r with ax := ax, bx := 0xAA55, cx := cx })
  read : ∀ requests r, r.ah = 0x42 → ∃ ax,
    bios requests r = (false, { r with ax := ax })

/-- The intervals of the members abut, the first one begins at `lo` and the
last one ends at `hi`. -/
def Abut {α : Type*} (start length : α → ℕ) : ℕ → List α → ℕ → Prop
  | lo, [], hi => lo = hi
  | lo, x :: xs, hi => start x = lo ∧ Abut start length (lo + length x) xs hi

/-- The arguments the routine is called with. -/
structure Arguments (r : Regs) : Prop where
  sector : 1 ≤ r.ax.toNat
  sectors : r.ax.toNat + r.cx.toNat ≤ 0x10000
  offset : r.bx.toNat ≤ 0x8000
  memory : r.es.toNat * 16 + r.bx.toNat + 512 * r.cx.toNat ≤ 0x100000

/-- The requests read `1` to `64` sectors each, stay inside their segment, and
tile the sectors and the memory asked for. -/
structure Tiles (r : Regs) (requests : List Request) : Prop where
  sectors : ∀ q ∈ requests, 1 ≤ q.sectors ∧ q.sectors ≤ 64
  segment : ∀ q ∈ requests, q.offset + 512 * q.sectors ≤ 0x10000
  lba : Abut Request.lba Request.sectors (r.ax.toNat - 1) requests
    (r.ax.toNat - 1 + r.cx.toNat)
  memory : Abut (fun q => q.segment * 16 + q.offset) (fun q => 512 * q.sectors)
    (r.es.toNat * 16 + r.bx.toNat) requests
    (r.es.toNat * 16 + r.bx.toNat + 512 * r.cx.toNat)

/-! ## One chunk -/

section Chunk

variable {bios : Bios} {dap : BitVec 16} {m : Machine}

@[simp] theorem ah_setAh (r : Regs) (v : BitVec 8) : (r.setAh v).ah = v := by
  have hv := v.isLt
  rw [Regs.ah, Regs.setAh, BitVec.toNat_ofNat]
  apply BitVec.eq_of_toNat_eq
  rw [BitVec.toNat_ofNat]
  omega

/-- The registers after a chunk of `k` sectors. -/
def Regs.advance (r : Regs) (k : BitVec 16) : Regs :=
  { r with
    ax := r.ax + k
    cx := r.cx - k
    dx := k <<< 5
    si := r.es + k <<< 5
    di := k
    es := r.es + k <<< 5 }

/-- The request for a chunk of `k` sectors. -/
def Regs.request (r : Regs) (k : BitVec 16) : Request where
  drive := r.dl
  sectors := k.toNat
  offset := r.bx.toNat
  segment := r.es.toNat
  lba := (r.ax - 1).toNat

theorem readChunk_eq (hbios : bios.Serves) (m : Machine) :
    ∃ m', readChunk bios dap m = some m' ∧
      m'.regs = m.regs.advance (chunk m.regs.cx) ∧ m'.stack = m.stack ∧
      m'.requests = m.requests ++ [m.regs.request (chunk m.regs.cx)] := by
  obtain ⟨ax, hread⟩ := hbios.read m.requests (Regs.setAh
    { m.regs with
      di := chunk m.regs.cx, ax := m.regs.ax - 1, si := dap } 0x42)
    (ah_setAh _ _)
  simp only [readChunk, Machine.int13, Machine.push, hread, ah_setAh, if_true,
    Bool.false_eq_true, if_false, Machine.pop]
  refine ⟨_, rfl, ?_, ?_, ?_⟩
  · simp [Regs.setAh, Regs.advance]
  · simp
  · simp [Regs.setAh, Packet.request, Regs.request, Regs.dl]

theorem dl_advance (r : Regs) : (r.advance 64).dl = 0 := by
  have hlow : BitVec.ofNat 8 ((64 : BitVec 16) <<< 5).toNat = 0 := by decide
  exact hlow

end Chunk

/-! ## The loop -/

section Loop

variable {bios : Bios} {dap : BitVec 16} {m : Machine}

/-- The drives that the requests for `n` sectors name, from drive `d` on: after
the first one `dl` holds what the segment was moved by. -/
def drives (d : BitVec 8) (n : ℕ) : List (BitVec 8) :=
  if n = 0 then [] else d :: List.replicate ((n - 1) / 64) 0

/-- What the loop does from a state with the registers `r`. -/
structure Reads (r : Regs) (requests : List Request) : Prop where
  tiles : Tiles r requests
  drives : requests.map (·.drive) = drives r.dl r.cx.toNat

theorem reads_nil {r : Regs} (hcx : r.cx = 0) : Reads r [] := by
  refine ⟨⟨by simp, by simp, ?_, ?_⟩, ?_⟩ <;>
    simp [Abut, Boot.drives, hcx]

/-- The sector before `ax` as a number. -/
theorem Arguments.lba {r : Regs} (hargs : Arguments r) :
    (r.ax - 1).toNat = r.ax.toNat - 1 := by
  have hsector := hargs.sector
  bv_omega

theorem reads_last {r : Regs} (hargs : Arguments r) (hcx : r.cx ≠ 0)
    (hlast : r.cx ≤ 64) : Reads r [r.request r.cx] := by
  have hpos : 1 ≤ r.cx.toNat := by bv_omega
  have hle : r.cx.toNat ≤ 64 := hlast
  have hoffset := hargs.offset
  refine ⟨⟨?_, ?_, ?_, ?_⟩, ?_⟩
  · rw [List.forall_mem_singleton]
    exact ⟨hpos, hle⟩
  · rw [List.forall_mem_singleton, Regs.request]
    dsimp only
    omega
  · exact ⟨hargs.lba, rfl⟩
  · exact ⟨rfl, rfl⟩
  · rw [drives, if_neg (by omega)]
    have hone : (r.cx.toNat - 1) / 64 = 0 := by omega
    rw [hone]
    rfl

theorem Arguments.toNat_advance {r : Regs} (hargs : Arguments r)
    (hmore : 64 < r.cx) :
    (r.advance 64).ax.toNat = r.ax.toNat + 64 ∧
      (r.advance 64).cx.toNat = r.cx.toNat - 64 ∧
      (r.advance 64).es.toNat = r.es.toNat + 2048 := by
  obtain ⟨-, hsectors, -, hmemory⟩ := hargs
  have hshift : (64 : BitVec 16) <<< 5 = 2048 := by decide
  rw [Regs.advance, hshift]
  bv_omega

theorem Reads.cons {r : Regs} {requests : List Request} (hargs : Arguments r)
    (hmore : 64 < r.cx) (h : Reads (r.advance 64) requests) :
    Reads r (r.request 64 :: requests) := by
  obtain ⟨⟨hsectors, hsegment, hlba, hmemory⟩, hdrives⟩ := h
  have hcx : 64 < r.cx.toNat := hmore
  have hoffset := hargs.offset
  have hrange := hargs.sectors
  have hnext : (r.es.toNat + 2048) * 16 + r.bx.toNat =
      r.es.toNat * 16 + r.bx.toNat + 512 * 64 := by
    omega
  have hlast : r.es.toNat * 16 + r.bx.toNat + 512 * 64 +
      512 * (r.cx.toNat - 64) =
        r.es.toNat * 16 + r.bx.toNat + 512 * r.cx.toNat := by
    rw [Nat.add_assoc, ← Nat.mul_add, Nat.add_sub_cancel' hcx.le]
  obtain ⟨hax', hcx', hes'⟩ := hargs.toNat_advance hmore
  have hbx' : (r.advance 64).bx = r.bx := rfl
  have hsector := hargs.sector
  have hsixtyFour : (r.request 64).sectors = 64 := rfl
  refine ⟨⟨?_, ?_, ?_, ?_⟩, ?_⟩
  · rw [List.forall_mem_cons]
    refine ⟨?_, hsectors⟩
    rw [hsixtyFour]
    omega
  · rw [List.forall_mem_cons]
    refine ⟨?_, hsegment⟩
    rw [hsixtyFour, show (r.request 64).offset = r.bx.toNat from rfl]
    omega
  · refine ⟨hargs.lba, ?_⟩
    have hstart : r.ax.toNat + 64 - 1 = r.ax.toNat - 1 + 64 := by omega
    have hend : r.ax.toNat - 1 + 64 + (r.cx.toNat - 64) =
        r.ax.toNat - 1 + r.cx.toNat := by
      omega
    rw [hax', hcx', hstart, hend] at hlba
    exact hlba
  · refine ⟨rfl, ?_⟩
    rw [hes', hbx', hcx', hnext, hlast] at hmemory
    exact hmemory
  · rw [dl_advance, hcx', Boot.drives, if_neg (by omega)] at hdrives
    rw [List.map_cons, hdrives, Boot.drives, if_neg (by omega)]
    have hcount : (r.cx.toNat - 1) / 64 = (r.cx.toNat - 64 - 1) / 64 + 1 := by
      omega
    rw [hcount, List.replicate_succ]
    rfl

/-- The arguments of what is left after a full chunk. -/
theorem Arguments.advance {r : Regs} (hargs : Arguments r)
    (hmore : 64 < r.cx) : Arguments (r.advance 64) := by
  obtain ⟨hax', hcx', hes'⟩ := hargs.toNat_advance hmore
  obtain ⟨hsector, hsectors, hoffset, hmemory⟩ := hargs
  have hcx : 64 < r.cx.toNat := hmore
  refine ⟨?_, ?_, hoffset, ?_⟩
  · omega
  · omega
  · rw [hes', hcx', show (r.advance 64).bx = r.bx from rfl]
    omega

/-- The loop ends, and its requests tile what is asked for. -/
theorem readLoop_reads (hbios : bios.Serves) {fuel : ℕ}
    (hfuel : m.regs.cx.toNat < fuel)
    (hargs : m.regs.cx ≠ 0 → Arguments m.regs) :
    ∃ m' requests, readLoop bios dap fuel m = some m' ∧
      m'.requests = m.requests ++ requests ∧ Reads m.regs requests := by
  induction fuel generalizing m with
  | zero => exact absurd hfuel (Nat.not_lt_zero _)
  | succ fuel ih =>
      by_cases hcx : m.regs.cx = 0
      · refine ⟨m, [], ?_, by simp, reads_nil hcx⟩
        rw [readLoop, if_pos hcx]
      have hargs' := hargs hcx
      obtain ⟨m₁, hchunk, hregs, -, hrequests⟩ :=
        @readChunk_eq bios dap hbios m
      rw [readLoop, if_neg hcx, hchunk, Option.bind_some]
      by_cases hlast : m.regs.cx ≤ 64
      · rw [chunk, if_pos hlast] at hregs hrequests
        have hzero : m₁.regs.cx = 0 := by
          rw [hregs]
          exact BitVec.sub_self _
        cases fuel with
        | zero => bv_omega
        | succ fuel =>
            refine ⟨m₁, _, ?_, hrequests, reads_last hargs' hcx hlast⟩
            rw [readLoop, if_pos hzero]
      · have hmore : 64 < m.regs.cx := BitVec.not_le.mp hlast
        rw [chunk, if_neg hlast] at hregs hrequests
        have hfuel' : m₁.regs.cx.toNat < fuel := by
          rw [hregs, Regs.advance]
          bv_omega
        obtain ⟨m', requests, hloop, hrequests', hreads⟩ := ih hfuel'
          fun _ => hregs ▸ hargs'.advance hmore
        rw [hregs] at hreads
        refine ⟨m', _, hloop, ?_, hreads.cons hargs' hmore⟩
        rw [hrequests', hrequests, List.append_assoc, List.singleton_append]

end Loop

/-! ## The whole routine -/

/-- The routine reads exactly what it is asked for: it comes back, and its
requests name the drive of the caller and tile the sectors and the memory. -/
def LoadsExactly (bios : Bios) (dap : BitVec 16) (m : Machine) : Prop :=
  ∃ m', (∀ fuel, m.regs.cx.toNat < fuel →
      diskLoadLba bios dap fuel m = some m') ∧
    ∃ requests, m'.requests = m.requests ++ requests ∧
      Tiles m.regs requests ∧ ∀ q ∈ requests, q.drive = m.regs.dl

section Routine

variable {bios : Bios} {dap : BitVec 16} {m : Machine}

@[simp] theorem requests_popa (m : Machine) : m.popa.requests = m.requests := by
  rw [Machine.popa]
  split <;> rfl

theorem readLoop_le {fuel fuel' : ℕ} {m' : Machine} (hle : fuel ≤ fuel')
    (h : readLoop bios dap fuel m = some m') :
    readLoop bios dap fuel' m = some m' := by
  induction fuel generalizing m fuel' with
  | zero => cases h
  | succ fuel ih =>
      obtain ⟨k, rfl⟩ := Nat.exists_eq_add_of_le' hle
      rw [← Nat.add_assoc, readLoop]
      rw [readLoop] at h
      split_ifs at h ⊢ with hcx
      · exact h
      · obtain ⟨m₁, hchunk, hloop⟩ := Option.bind_eq_some_iff.mp h
        rw [hchunk, Option.bind_some]
        exact ih (Nat.le_add_left fuel k) hloop

theorem checkExtensions_eq (hbios : bios.Serves) (m : Machine) :
    ∃ m₁, checkExtensions bios m = some m₁ ∧ m₁.regs = m.regs ∧
      m₁.requests = m.requests := by
  obtain ⟨ax, cx, hcheck⟩ := hbios.check m.requests
    { Regs.setAh m.regs 0x41 with bx := 0x55AA } (ah_setAh _ _)
  have hlog : ¬Regs.ah { Regs.setAh m.regs 0x41 with bx := 0x55AA } =
      0x42 := by
    intro h
    have hcode : (0x41 : BitVec 8) = 0x42 := (ah_setAh _ _).symm.trans h
    exact absurd hcode (by decide)
  have hcarry : ¬(false = true ∨ (0xAA55 : BitVec 16) ≠ 0xAA55) := by decide
  simp only [checkExtensions, Machine.int13, Machine.push, hcheck,
    if_neg hcarry, Machine.pop]
  exact ⟨_, rfl, by simp [Regs.setAh], if_neg hlog⟩

theorem diskLoadLba_reads (hbios : bios.Serves)
    (hargs : Arguments m.regs) :
    ∃ m' requests, (∀ fuel, m.regs.cx.toNat < fuel →
        diskLoadLba bios dap fuel m = some m') ∧
      m'.requests = m.requests ++ requests ∧ Reads m.regs requests := by
  obtain ⟨m₁, hcheck, hregs₁, hrequests₁⟩ := checkExtensions_eq hbios
    { m.pusha with regs := { m.regs with si := 0, ds := 0 } }
  have hcx : m₁.regs.cx = m.regs.cx := by rw [hregs₁]
  have hargs₁ : Arguments m₁.regs := by
    rw [hregs₁]
    exact ⟨hargs.sector, hargs.sectors, hargs.offset, hargs.memory⟩
  obtain ⟨m', requests, hloop, hrequests, hreads⟩ :=
    @readLoop_reads bios dap m₁ hbios _ m₁.regs.cx.toNat.lt_succ_self
      fun _ => hargs₁
  refine ⟨m'.popa, requests, fun fuel hfuel => ?_, ?_, ?_⟩
  · have hle : m₁.regs.cx.toNat + 1 ≤ fuel := hcx ▸ hfuel
    have hrest := readLoop_le hle hloop
    rw [diskLoadLba]
    change ((checkExtensions bios
      { m.pusha with regs := { m.regs with si := 0, ds := 0 } }).bind
        (readLoop bios dap fuel)).map Machine.popa = some m'.popa
    rw [hcheck, Option.bind_some, hrest, Option.map_some]
  · rw [requests_popa, hrequests, hrequests₁]
    rfl
  · rw [hregs₁] at hreads
    exact ⟨⟨hreads.tiles.sectors, hreads.tiles.segment, hreads.tiles.lba,
      hreads.tiles.memory⟩, hreads.drives⟩

theorem zero_mem_drives (d : BitVec 8) {n : ℕ} (hn : 64 < n) :
    (0 : BitVec 8) ∈ drives d n := by
  rw [drives, if_neg (by omega)]
  apply List.mem_cons_of_mem
  rw [List.mem_replicate]
  exact ⟨by omega, rfl⟩

theorem mem_drives {d e : BitVec 8} {n : ℕ} (hwhen : n ≤ 64 ∨ d = 0)
    (he : e ∈ drives d n) : e = d := by
  rw [drives] at he
  split_ifs at he with hn
  · exact absurd he List.not_mem_nil
  · rcases List.mem_cons.mp he with hfirst | hlater
    · exact hfirst
    · obtain ⟨hcount, hzero⟩ := List.mem_replicate.mp hlater
      rcases hwhen with hone | hd
      · omega
      · rw [hzero, hd]

/-- A call that reads exactly what it is asked for has one drive in all of its
requests. -/
theorem LoadsExactly.mem_drives (hbios : bios.Serves)
    (hargs : Arguments m.regs) (h : LoadsExactly bios dap m) {d : BitVec 8}
    (hd : d ∈ drives m.regs.dl m.regs.cx.toNat) : d = m.regs.dl := by
  obtain ⟨m', requests, hloads, hrequests, -, hdrives⟩ :=
    @diskLoadLba_reads bios dap m hbios hargs
  obtain ⟨m'', hloads', requests', hrequests', -, hsame⟩ := h
  have hfuel := m.regs.cx.toNat.lt_succ_self
  obtain rfl := Option.some.inj ((hloads _ hfuel).symm.trans
    (hloads' _ hfuel))
  obtain rfl := List.append_cancel_left (hrequests.symm.trans hrequests')
  rw [← hdrives] at hd
  obtain ⟨q, hq, rfl⟩ := List.mem_map.mp hd
  exact hsame q hq

end Routine

/-- `disk_load_lba` reads exactly what it is asked for if and only if one chunk
is enough or the drive is `0`: after a full chunk `dl` holds a part of what the
segment was moved by. -/
theorem loadsExactly_iff {bios : Bios} (hbios : bios.Serves) (dap : BitVec 16)
    (m : Machine) (hargs : Arguments m.regs) :
    LoadsExactly bios dap m ↔ m.regs.cx.toNat ≤ 64 ∨ m.regs.dl = 0 := by
  constructor
  · intro hexactly
    by_contra hnot
    rw [not_or, not_le] at hnot
    have hzero := zero_mem_drives m.regs.dl hnot.1
    exact hnot.2 (hexactly.mem_drives hbios hargs hzero).symm
  · intro hwhen
    obtain ⟨m', requests, hloads, hrequests, htiles, hdrives⟩ :=
      @diskLoadLba_reads bios dap m hbios hargs
    refine ⟨m', hloads, requests, hrequests, htiles, fun q hq => ?_⟩
    have hmem : q.drive ∈ drives m.regs.dl m.regs.cx.toNat :=
      hdrives ▸ List.mem_map_of_mem hq
    exact mem_drives hwhen hmem

/-! ## A BIOS -/

/-- A BIOS that keeps every register it may change, apart from the signature
in `bx`. -/
def plainBios : Bios := fun _ r =>
  if r.ah = 0x41 then (false, { r with bx := 0xAA55 }) else (false, r)

theorem serves_plainBios : plainBios.Serves := by
  constructor
  · intro requests r hah
    exact ⟨r.ax, r.cx, if_pos hah⟩
  · intro requests r hah
    refine ⟨r.ax, if_neg ?_⟩
    rw [hah]
    decide

/-- A call of the routine with `sectors` in `cx`: to `0x1000:0`, from sector `4`
of drive `0x80`. -/
def callFor (sectors : BitVec 16) : Machine where
  regs :=
    { ax := 4, bx := 0, cx := sectors, dx := 0x80, si := 0, di := 0, ds := 0
      es := 0x1000 }
  stack := []
  packets := fun _ _ =>
    { size := 0x10, sectors := 0, bufferOff := 0, bufferSeg := 0, lbaLow := 0
      lbaHigh := 0, lbaUpper := 0 }
  requests := []

theorem arguments_callFor {sectors : BitVec 16} (h : sectors.toNat ≤ 0x780) :
    Arguments (callFor sectors).regs := by
  have hax : (callFor sectors).regs.ax.toNat = 4 := rfl
  have hbx : (callFor sectors).regs.bx.toNat = 0 := rfl
  have hcx : (callFor sectors).regs.cx = sectors := rfl
  have hes : (callFor sectors).regs.es.toNat = 0x1000 := rfl
  refine ⟨?_, ?_, ?_, ?_⟩
  · omega
  · rw [hcx]
    omega
  · omega
  · rw [hcx]
    omega

/-- The kernel of 55 sectors is read in one chunk. -/
theorem loadsExactly_iff_kernel :
    LoadsExactly plainBios 0x7F00 (callFor 55) :=
  (loadsExactly_iff serves_plainBios 0x7F00 (callFor 55)
    (arguments_callFor (by decide))).mpr (Or.inl (by decide))

/-- A kernel of 65 sectors is not read from the drive it is on. -/
theorem not_loadsExactly_twoChunks :
    ∃ m, Arguments m.regs ∧ ¬LoadsExactly plainBios 0x7F00 m := by
  have hargs : Arguments (callFor 65).regs := arguments_callFor (by decide)
  refine ⟨callFor 65, hargs, ?_⟩
  intro hexactly
  have hzero := zero_mem_drives (callFor 65).regs.dl (n := 65) (by decide)
  exact absurd (hexactly.mem_drives serves_plainBios hargs hzero) (by decide)

end BabOs.Boot
