import BabOs.Irq.Gates
import BabOs.Irq.Runs

/-!
# From a vector to its handler

The processor finds the stub for a vector in the table, and every stub builds a
frame of one layout, whether the processor has pushed an error code or not.  The
handler of the vector is called with it, and the stub resumes what was
interrupted.
-/

namespace BabOs.Irq

open Memory

/-! ## The stubs -/

/-- The lines `ISR_ERRCODE` of `interrupt.asm`. -/
def isrErrcode : List ℕ := [8, 10, 11, 12, 13, 14, 17]

namespace Cpu

/-- `isr_common_stub` up to the call of `isr_handler`; it differs from
`irq_common_stub` in the function that it calls. -/
def isrCommonStubEnter (c : Cpu) (ret : UInt32) : Cpu := c.irqCommonStubEnter ret

/-- The stub that `ISR_NOERRCODE` or `ISR_ERRCODE` makes for the number `n`. -/
def isr (n : ℕ) (c : Cpu) (ret : UInt32) : Cpu :=
  let c := if n ∈ isrErrcode then c else c.push 0
  (c.push (UInt32.ofNat n)).isrCommonStubEnter ret

/-- The stub that `IRQ` makes for the vector `n`. -/
def irq (n : ℕ) (c : Cpu) (ret : UInt32) : Cpu :=
  ((c.push 0).push (UInt32.ofNat n)).irqCommonStubEnter ret

def stub (v : ℕ) (c : Cpu) (ret : UInt32) : Cpu :=
  if v < 32 then c.isr v ret else c.irq v ret

/-! ## The processor -/

/-- The exceptions for which the processor pushes an error code: double fault,
invalid TSS, segment not present, stack fault, general protection, page fault
and alignment check. -/
def PushesCode (v : ℕ) : Prop := v = 8 ∨ 10 ≤ v ∧ v ≤ 14 ∨ v = 17

instance (v : ℕ) : Decidable (PushesCode v) :=
  inferInstanceAs (Decidable (_ ∨ _ ∧ _ ∨ _))

/-- What the processor pushes for the vector `v`; `code` is the error code. -/
def raise (v : ℕ) (code : UInt32) (c : Cpu) : Cpu :=
  if PushesCode v then c.interrupt.push code else c.interrupt

/-- The processor takes the vector `v` through the table at `idt` and runs the
code behind the gate.  It goes through 32-bit interrupt gates of ring 0 only. -/
def deliver (code : ℕ → Option (Cpu → UInt32 → Cpu)) (idt v : ℕ)
    (errCode ret : UInt32) (c : Cpu) : Option Cpu :=
  let gate := gateAt c.mem idt v
  if gate.flags = 0x8E ∧ gate.selector = 0x08 then
    (code gate.offset).map fun stub => stub (c.raise v errCode) ret
  else none

end Cpu

def frameCode (v : ℕ) (errCode : UInt32) : UInt32 :=
  if Cpu.PushesCode v then errCode else 0

def Registers.frameFor (g : Registers) (v : ℕ) (errCode : UInt32) : Frame :=
  { g.frame with intNo := UInt32.ofNat v, errCode := frameCode v errCode }

/-! ## Frames -/

section Frames

variable (c : Cpu) (errCode ret : UInt32) {v : ℕ}

/-- The file pushes a zero exactly where the processor pushes nothing. -/
theorem mem_isrErrcode_iff : v ∈ isrErrcode ↔ Cpu.PushesCode v := by
  simp only [isrErrcode, Cpu.PushesCode, List.mem_cons, List.not_mem_nil, or_false]
  omega

theorem not_pushesCode (hv : 32 ≤ v) : ¬Cpu.PushesCode v := by
  rw [Cpu.PushesCode]
  omega

/-- Every stub goes on in the same way, with the error code and the number on
the stack. -/
theorem stub_raise (v : ℕ) :
    (c.raise v errCode).stub v ret =
      ((c.interrupt.push (frameCode v errCode)).push
        (UInt32.ofNat v)).irqCommonStubEnter ret := by
  by_cases hpushes : Cpu.PushesCode v
  · have hv : v < 32 := by
      by_contra hge
      exact not_pushesCode (Nat.not_lt.mp hge) hpushes
    rw [Cpu.stub, if_pos hv, Cpu.isr, if_pos (mem_isrErrcode_iff.mpr hpushes),
      Cpu.raise, if_pos hpushes, frameCode, if_pos hpushes, Cpu.isrCommonStubEnter]
  · rw [Cpu.stub, Cpu.isr, if_neg (mt mem_isrErrcode_iff.mp hpushes), Cpu.raise,
      if_neg hpushes, frameCode, if_neg hpushes, Cpu.isrCommonStubEnter, Cpu.irq,
      ite_self]

/-- What lies on the stack when the handler is called. -/
theorem stub_stack (v : ℕ) :
    ((c.raise v errCode).stub v ret).stack =
      pushWords c.stack ((c.regs.frameFor v errCode).words.reverse ++
        [c.regs.esp - 56, ret]) := by
  have hesp : c.regs.esp - 12 - 4 - 4 = c.regs.esp - 20 := by
    simp only [UInt32.sub_eq_add_neg, UInt32.add_assoc]
    rfl
  have hframe : c.regs.esp - 20 - 36 = c.regs.esp - 56 := by
    simp only [UInt32.sub_eq_add_neg, UInt32.add_assoc]
    rfl
  rw [stub_raise]
  simp only [irqCommonStubEnter_stack, push_stack, push_regs, interrupt_stack,
    interrupt_regs, hesp, hframe, Frame.words, Registers.frameFor,
    Registers.frame, pushWords, List.foldl_append, List.reverse_cons,
    List.reverse_nil, List.foldl_cons, List.foldl_nil]

/-- The handler finds the address of the frame above its return address. -/
theorem stub_frame (v : ℕ) :
    let entered := (c.raise v errCode).stub v ret
    entered.mem.word (entered.regs.esp + 4) = c.regs.esp - 56 ∧
      entered.mem.HoldsWords (c.regs.esp - 56)
        (c.regs.frameFor v errCode).words := by
  intro entered
  have hnil : c.stack.2.HoldsWords c.stack.1 [] := holdsWords_nil
  have hlength : ([] : List UInt32).length + ((c.regs.frameFor v
      errCode).words.reverse ++ [c.regs.esp - 56, ret]).length ≤ 2 ^ 30 := by
    simp [Frame.words]
  have hholds := holdsWords_pushWords hnil hlength
  rw [← stub_stack, List.append_nil, List.reverse_append,
    List.reverse_reverse] at hholds
  obtain ⟨-, harg, hwords⟩ := hholds
  have hesp : entered.stack.1 + 4 + 4 = c.regs.esp - 56 := by
    rw [stub_stack, fst_pushWords, UInt32.sub_eq_add_neg, UInt32.add_assoc,
      UInt32.add_assoc, UInt32.sub_eq_add_neg]
    rfl
  rw [hesp] at hwords
  exact ⟨harg, hwords⟩

/-- The number of a frame selects the handler. -/
theorem frameFor_intNo {m : Memory} {a : UInt32} {g : Registers}
    (h : m.HoldsWords a (g.frameFor v errCode).words) (hv : v < 256) :
    (m.word (a + 36)).toNat = v := by
  simp only [Frame.words, holdsWords_cons] at h
  obtain ⟨-, -, -, -, -, -, -, -, -, hnumber, -⟩ := h
  have haddr : a + 4 + 4 + 4 + 4 + 4 + 4 + 4 + 4 + 4 = a + 36 := by
    simp only [UInt32.add_assoc]
    rfl
  rw [haddr] at hnumber
  rw [hnumber, Registers.frameFor, UInt32.toNat_ofNat']
  omega

/-- The number and the error code do not matter to what is resumed. -/
theorem frameFor_context (g : Registers) (v : ℕ) :
    (g.frameFor v errCode).context (g.esp - 56) = g.context :=
  frame_context g

end Frames

/-! ## Handlers -/

/-- `isr_handler`; `none` is the endless loop behind the message. -/
def isrHandler (interruptHandlers : ℕ → Option Handler) (m : Memory)
    (r : UInt32) (k : Kernel) : Option (UInt32 × Kernel) :=
  match interruptHandlers (m.word (r + 36)).toNat with
  | some handler => handler r k
  | none => if (m.word (r + 36)).toNat < 32 then none else some (r, k)

/-- The call in the stub for the vector `v`; the argument lies above the return
address. -/
def callHandler (interruptHandlers : ℕ → Option Handler) (v : ℕ) (c : Cpu)
    (k : Kernel) : Option (UInt32 × Kernel) :=
  let r := c.mem.word (c.regs.esp + 4)
  if v < 32 then isrHandler interruptHandlers c.mem r k
  else irqHandler interruptHandlers c.mem r k

/-- The handler that is registered for `v` is called with the frame at `r`;
without one, an exception halts the kernel. -/
def registered (interruptHandlers : ℕ → Option Handler) (v : ℕ) (r : UInt32)
    (k : Kernel) : Option (UInt32 × Kernel) :=
  match interruptHandlers v with
  | some handler => handler r k
  | none => if v < 32 then none else some (r, k)

section Handlers

variable {c : Cpu} {r : UInt32} {v : ℕ}
  {interruptHandlers : ℕ → Option Handler} {k : Kernel}

theorem callHandler_eq (harg : c.mem.word (c.regs.esp + 4) = r)
    (hnumber : (c.mem.word (r + 36)).toNat = v) :
    callHandler interruptHandlers v c k = registered interruptHandlers v r k := by
  rw [callHandler, harg, isrHandler, irqHandler, registered, hnumber]
  split_ifs with hv
  · rfl
  · cases interruptHandlers v with
    | none => rfl
    | some handler => rfl

end Handlers

/-! ## Vectors -/

/-- In every state in which the table is as `idt_init` and `isr_install` have
left it, and for every vector: the processor goes to the stub for the vector, or
nowhere from 48 on.  The stub saves the registers in a frame with the number and
the error code, or zero, and calls the handler that is registered for the
number.  When the handler gives the frame back, the stub resumes the registers
that were interrupted. -/
theorem deliver_registered {idt : ℕ} {isr irq : ℕ → ℕ}
    {code : ℕ → Option (Cpu → UInt32 → Cpu)} {c : Cpu} (m : Memory)
    (hidt : SameOn (Set.Ico idt (idt + 2048))
      (isrInstall idt isr irq (idtInit idt m)) c.mem)
    (hlt : ∀ v < 48, stubAddress isr irq v < 2 ^ 32)
    (hcode : ∀ v < 48, code (stubAddress isr irq v) =
      some fun c ret => c.stub v ret)
    {v : ℕ} (hv : v < 256) (errCode ret : UInt32)
    (interruptHandlers : ℕ → Option Handler) (k : Kernel) :
    (48 ≤ v → c.deliver code idt v errCode ret = none) ∧
      (v < 48 → ∃ entered, c.deliver code idt v errCode ret = some entered ∧
        entered.mem.HoldsWords (c.regs.esp - 56)
          (c.regs.frameFor v errCode).words ∧
        callHandler interruptHandlers v entered k =
          registered interruptHandlers v (c.regs.esp - 56) k ∧
        ∀ (regs : Registers) (mem : Memory),
          SameOn (wordsAt (c.regs.esp - 56) 14) entered.mem mem →
          (Cpu.irqCommonStubLeave ⟨{ regs with eax := c.regs.esp - 56 },
            mem⟩).regs.context = c.regs.context) := by
  have hgate : gateAt c.mem idt v = if v < 48 then
      ⟨stubAddress isr irq v % 2 ^ 32, 0x08, 0x8E⟩ else ⟨0, 0, 0⟩ := by
    rw [← @gateAt_isrInstall m idt v isr irq hv]
    apply gateAt_congr
    intro x hlo hhi
    exact hidt x ⟨by omega, by omega⟩
  constructor
  · intro hge
    rw [Cpu.deliver, hgate, if_neg (Nat.not_lt.mpr hge)]
    exact if_neg fun h => absurd h.2 (by decide)
  · intro hstub
    obtain ⟨harg, hwords⟩ := stub_frame c errCode ret v
    refine ⟨_, ?_, hwords, callHandler_eq harg (frameFor_intNo errCode hwords hv),
      fun regs mem hsame => ?_⟩
    · rw [Cpu.deliver, hgate, if_pos hstub, Nat.mod_eq_of_lt (hlt v hstub)]
      dsimp only
      rw [if_pos ⟨rfl, rfl⟩, hcode v hstub, Option.map_some]
    · rw [← frameFor_context errCode c.regs v]
      apply irqCommonStubLeave_context
      exact hwords.sameOn hsame subset_rfl

/-- Code in which the stub for each vector lies at the address of the same
number. -/
def stubs (a : ℕ) : Option (Cpu → UInt32 → Cpu) :=
  some fun c ret => c.stub a ret

/-- A general protection fault with the error code 5. -/
theorem deliver_registered_fault :
    ∃ (c entered : Cpu), c.regs = idle.regs ∧
      c.deliver stubs 0xA000 13 5 0x500 = some entered ∧
      entered.mem.HoldsWords (idle.regs.esp - 56)
        (idle.regs.frameFor 13 5).words := by
  obtain ⟨isr, hisr⟩ : ∃ isr : ℕ → ℕ, ∀ v, isr v = v := ⟨fun v => v, fun _ => rfl⟩
  obtain ⟨irq, hirq⟩ : ∃ irq : ℕ → ℕ, ∀ v, irq v = 32 + v :=
    ⟨fun v => 32 + v, fun _ => rfl⟩
  have haddress : ∀ v, stubAddress isr irq v = v := by
    intro v
    rw [stubAddress, hisr, hirq]
    split_ifs <;> omega
  have hidt : SameOn (Set.Ico 0xA000 (0xA000 + 2048))
      (isrInstall 0xA000 isr irq (idtInit 0xA000 idle.mem))
      (⟨idle.regs, isrInstall 0xA000 isr irq (idtInit 0xA000 idle.mem)⟩ : Cpu).mem :=
    SameOn.refl _ _
  have hlt : ∀ v < 48, stubAddress isr irq v < 2 ^ 32 := by
    intro v hv
    rw [haddress]
    omega
  have hcode : ∀ v < 48, stubs (stubAddress isr irq v) =
      some fun c ret => c.stub v ret :=
    fun v _ => congrArg stubs (haddress v)
  obtain ⟨entered, hdeliver, hwords, -⟩ := (deliver_registered idle.mem hidt hlt
    hcode (show 13 < 256 by decide) 5 0x500 (fun _ => none) idle.toKernel).2
      (by decide)
  exact ⟨⟨idle.regs, isrInstall 0xA000 isr irq (idtInit 0xA000 idle.mem)⟩,
    entered, rfl, hdeliver, hwords⟩

end BabOs.Irq
