import BabOs.Irq.Frames

/-!
# The interrupt descriptor table

`idt_init` empties the table in memory, and `isr_install` enters the stubs of
`interrupt.asm`.  The processor reads a gate back from the bytes of the table
when it takes a vector.
-/

namespace BabOs.Irq

open Memory

/-! ## The table in memory -/

def load16 (m : Memory) (a : ℕ) : ℕ := m.load8 a + 256 * m.load8 (a + 1)

def store16 (m : Memory) (a v : ℕ) : Memory :=
  (m.store8 a v).store8 (a + 1) (v / 256)

/-- `idt_set_gate`, for the table at the address `idt` -/
def idtSetGate (idt num base sel flags : ℕ) (m : Memory) : Memory :=
  let gate := idt + 8 * (num % 256)
  let m := store16 m gate (base % 2 ^ 16)
  let m := store16 m (gate + 6) (base / 2 ^ 16 % 2 ^ 16)
  let m := store16 m (gate + 2) sel
  let m := m.store8 (gate + 4) 0
  m.store8 (gate + 5) flags

/-- The arguments of a call of `idt_set_gate`. -/
structure GateCall where
  num : ℕ
  base : ℕ
  sel : ℕ
  flags : ℕ

/-- Calls of `idt_set_gate` one after the other. -/
def idtSetGates (idt : ℕ) (calls : List GateCall) (m : Memory) : Memory :=
  calls.foldl (fun m c => idtSetGate idt c.num c.base c.sel c.flags m) m

def idtInitCalls : List GateCall := (List.range 256).map fun i => ⟨i, 0, 0, 0⟩

/-- `idt_init` but for `lidt`, which makes the table known to the processor. -/
def idtInit (idt : ℕ) (m : Memory) : Memory := idtSetGates idt idtInitCalls m

/-- The calls of `isr_install`, where the stubs `isr0` to `isr31` and `irq0` to
`irq15` lie at the given addresses. -/
def isrInstallCalls (isr irq : ℕ → ℕ) : List GateCall :=
  (List.range 32).map (fun i => ⟨i, isr i, 0x08, 0x8E⟩) ++
    (List.range 16).map fun i => ⟨32 + i, irq i, 0x08, 0x8E⟩

/-- `isr_install` but for `pic_remap` and the table of the handlers. -/
def isrInstall (idt : ℕ) (isr irq : ℕ → ℕ) (m : Memory) : Memory :=
  idtSetGates idt (isrInstallCalls isr irq) m

structure Gate where
  offset : ℕ
  selector : ℕ
  flags : ℕ
  deriving DecidableEq

def gateAt (m : Memory) (idt v : ℕ) : Gate where
  offset := load16 m (idt + 8 * v) + 2 ^ 16 * load16 m (idt + 8 * v + 6)
  selector := load16 m (idt + 8 * v + 2)
  flags := m.load8 (idt + 8 * v + 5)

def GateCall.gate (c : GateCall) : Gate where
  offset := c.base % 2 ^ 32
  selector := c.sel % 2 ^ 16
  flags := c.flags % 256

section Gates

variable {m m' : Memory} {idt num base sel flags v x a : ℕ} {c : GateCall}
  {calls : List GateCall} {isr irq : ℕ → ℕ}

theorem byte_store16_of_disjoint (h : x < a ∨ a + 2 ≤ x) :
    (store16 m a v).byte x = m.byte x := by
  rw [store16, byte_store8_of_ne (by omega), byte_store8_of_ne (by omega)]

theorem load16_store16 : load16 (store16 m a v) a = v % 2 ^ 16 := by
  rw [load16, store16, load8_store8, load8_store8_of_ne (by omega), load8_store8]
  omega

theorem load16_congr (h : ∀ x, a ≤ x → x < a + 2 → m.byte x = m'.byte x) :
    load16 m a = load16 m' a := by
  rw [load16, load16, load8_congr (h a le_rfl (by omega)),
    load8_congr (h (a + 1) (by omega) (by omega))]

theorem load16_store16_of_disjoint (h : a + 2 ≤ x ∨ x + 2 ≤ a) :
    load16 (store16 m a v) x = load16 m x :=
  load16_congr fun _ _ _ => byte_store16_of_disjoint (by omega)

theorem load16_store8_of_disjoint (h : a < x ∨ x + 2 ≤ a) :
    load16 (m.store8 a v) x = load16 m x :=
  load16_congr fun _ _ _ => byte_store8_of_ne (by omega)

theorem byte_idtSetGate_of_disjoint (hnum : num < 256)
    (h : x < idt + 8 * num ∨ idt + 8 * num + 8 ≤ x) :
    (idtSetGate idt num base sel flags m).byte x = m.byte x := by
  rw [idtSetGate, Nat.mod_eq_of_lt hnum]
  rw [byte_store8_of_ne (by omega), byte_store8_of_ne (by omega),
    byte_store16_of_disjoint (by omega), byte_store16_of_disjoint (by omega),
    byte_store16_of_disjoint (by omega)]

theorem gateAt_congr
    (h : ∀ x, idt + 8 * v ≤ x → x < idt + 8 * v + 8 → m.byte x = m'.byte x) :
    gateAt m idt v = gateAt m' idt v := by
  rw [gateAt, gateAt, load16_congr fun x _ _ => h x (by omega) (by omega),
    load16_congr fun x _ _ => h x (by omega) (by omega),
    load16_congr fun x _ _ => h x (by omega) (by omega),
    load8_congr (h _ (by omega) (by omega))]

theorem gateAt_idtSetGate_of_ne (hnum : num < 256) (hv : v ≠ num) :
    gateAt (idtSetGate idt num base sel flags m) idt v = gateAt m idt v :=
  gateAt_congr fun _ _ _ => byte_idtSetGate_of_disjoint hnum (by omega)

theorem gateAt_idtSetGate_self (hnum : num < 256) :
    gateAt (idtSetGate idt num base sel flags m) idt num =
      GateCall.gate ⟨num, base, sel, flags⟩ := by
  have hbase : base % 2 ^ 16 % 2 ^ 16 +
      2 ^ 16 * (base / 2 ^ 16 % 2 ^ 16 % 2 ^ 16) = base % 2 ^ 32 := by
    omega
  rw [gateAt, idtSetGate, Nat.mod_eq_of_lt hnum]
  rw [GateCall.gate, ← hbase]
  congr 1
  · rw [load16_store8_of_disjoint (by omega), load16_store8_of_disjoint (by omega),
      load16_store16_of_disjoint (by omega),
      load16_store16_of_disjoint (by omega), load16_store16,
      load16_store8_of_disjoint (by omega), load16_store8_of_disjoint (by omega),
      load16_store16_of_disjoint (by omega), load16_store16]
  · rw [load16_store8_of_disjoint (by omega), load16_store8_of_disjoint (by omega),
      load16_store16]
  · exact load8_store8

theorem gateAt_idtSetGates_of_notMem (hcalls : ∀ c ∈ calls, c.num < 256)
    (hv : v ∉ calls.map GateCall.num) :
    gateAt (idtSetGates idt calls m) idt v = gateAt m idt v := by
  induction calls generalizing m with
  | nil => rfl
  | cons c calls ih =>
      rw [List.forall_mem_cons] at hcalls
      rw [List.map_cons, List.mem_cons, not_or] at hv
      rw [idtSetGates, List.foldl_cons, ← idtSetGates, ih hcalls.2 hv.2]
      exact gateAt_idtSetGate_of_ne hcalls.1 hv.1

/-- With one call for each gate, every gate is as its call says. -/
theorem gateAt_idtSetGates_of_mem (hcalls : ∀ c ∈ calls, c.num < 256)
    (hnodup : (calls.map GateCall.num).Nodup) (hc : c ∈ calls) :
    gateAt (idtSetGates idt calls m) idt c.num = c.gate := by
  induction calls generalizing m with
  | nil => exact absurd hc List.not_mem_nil
  | cons first calls ih =>
      rw [List.forall_mem_cons] at hcalls
      rw [List.map_cons, List.nodup_cons] at hnodup
      rw [idtSetGates, List.foldl_cons, ← idtSetGates]
      rcases List.mem_cons.mp hc with rfl | hlater
      · rw [gateAt_idtSetGates_of_notMem hcalls.2 hnodup.1]
        exact gateAt_idtSetGate_self hcalls.1
      · exact ih hcalls.2 hnodup.2 hlater

theorem num_idtInitCalls : idtInitCalls.map GateCall.num = List.range 256 := by
  rw [idtInitCalls, List.map_map]
  exact List.map_id _

theorem num_isrInstallCalls :
    (isrInstallCalls isr irq).map GateCall.num = List.range 48 := by
  rw [isrInstallCalls, List.map_append, List.map_map, List.map_map]
  rfl

theorem num_lt_of_mem_isrInstallCalls (hc : c ∈ isrInstallCalls isr irq) :
    c.num < 48 := by
  rw [← List.mem_range, ← @num_isrInstallCalls isr irq]
  exact List.mem_map_of_mem hc

def stubAddress (isr irq : ℕ → ℕ) (v : ℕ) : ℕ :=
  if v < 32 then isr v else irq (v - 32)

theorem gateAt_isrInstall (hv : v < 256) :
    gateAt (isrInstall idt isr irq (idtInit idt m)) idt v =
      if v < 48 then ⟨stubAddress isr irq v % 2 ^ 32, 0x08, 0x8E⟩
      else ⟨0, 0, 0⟩ := by
  have hlt : ∀ c ∈ isrInstallCalls isr irq, c.num < 256 := fun c hc =>
    (num_lt_of_mem_isrInstallCalls hc).trans (by decide)
  split_ifs with hstub
  · have hnodup : ((isrInstallCalls isr irq).map GateCall.num).Nodup := by
      rw [num_isrInstallCalls]
      exact List.nodup_range
    have hmem : ⟨v, stubAddress isr irq v, 0x08, 0x8E⟩ ∈
        isrInstallCalls isr irq := by
      rw [isrInstallCalls, List.mem_append, List.mem_map, List.mem_map]
      by_cases hisr : v < 32
      · refine Or.inl ⟨v, List.mem_range.mpr hisr, ?_⟩
        rw [stubAddress, if_pos hisr]
      · refine Or.inr ⟨v - 32, List.mem_range.mpr (by omega), ?_⟩
        rw [stubAddress, if_neg hisr, Nat.add_sub_cancel' (by omega)]
    have hgate := @gateAt_idtSetGates_of_mem (idtInit idt m) idt _ _ hlt hnodup
      hmem
    rw [isrInstall, hgate]
    simp [GateCall.gate]
  · have hout : v ∉ (isrInstallCalls isr irq).map GateCall.num := by
      rw [num_isrInstallCalls, List.mem_range]
      exact hstub
    rw [isrInstall, gateAt_idtSetGates_of_notMem hlt hout, idtInit]
    have hlt' : ∀ c ∈ idtInitCalls, c.num < 256 := by
      intro c hc
      rw [← List.mem_range, ← num_idtInitCalls]
      exact List.mem_map_of_mem hc
    have hnodup : (idtInitCalls.map GateCall.num).Nodup := by
      rw [num_idtInitCalls]
      exact List.nodup_range
    have hmem : ⟨v, 0, 0, 0⟩ ∈ idtInitCalls :=
      List.mem_map.mpr ⟨v, List.mem_range.mpr hv, rfl⟩
    have hgate := @gateAt_idtSetGates_of_mem m idt _ _ hlt' hnodup hmem
    rw [hgate]
    simp [GateCall.gate]

end Gates

end BabOs.Irq
