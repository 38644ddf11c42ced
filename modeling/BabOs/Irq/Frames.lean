import BabOs.Irq.Model

/-!
# One frame layout

The stub pushes a frame, pops a frame, and `task_create` builds one.  The
three agree on its layout: the context that the stub loads from a frame is the
one that was saved in it, or the one that a new task starts with.
-/

namespace BabOs.Irq

open Memory

/-! ## Frames and contexts -/

/-- `registers_t` without `useresp` and `ss`, which an interrupt in ring 0
does not push. -/
structure Frame where
  ds : UInt32
  edi : UInt32
  esi : UInt32
  ebp : UInt32
  esp : UInt32
  ebx : UInt32
  edx : UInt32
  ecx : UInt32
  eax : UInt32
  intNo : UInt32
  errCode : UInt32
  eip : UInt32
  cs : UInt32
  eflags : UInt32

def Frame.words (f : Frame) : List UInt32 :=
  [f.ds, f.edi, f.esi, f.ebp, f.esp, f.ebx, f.edx, f.ecx, f.eax, f.intNo,
    f.errCode, f.eip, f.cs, f.eflags]

/-- What a task finds in its registers when it goes on. -/
structure Context where
  eax : UInt32
  ecx : UInt32
  edx : UInt32
  ebx : UInt32
  esp : UInt32
  ebp : UInt32
  esi : UInt32
  edi : UInt32
  ds : UInt16
  eip : UInt32
  cs : UInt16
  eflags : UInt32
  deriving DecidableEq

def Registers.context (g : Registers) : Context where
  eax := g.eax
  ecx := g.ecx
  edx := g.edx
  ebx := g.ebx
  esp := g.esp
  ebp := g.ebp
  esi := g.esi
  edi := g.edi
  ds := g.ds
  eip := g.eip
  cs := g.cs
  eflags := g.eflags

/-- The context that the frame `f` at the address `a` stands for. -/
def Frame.context (f : Frame) (a : UInt32) : Context where
  eax := f.eax
  ecx := f.ecx
  edx := f.edx
  ebx := f.ebx
  esp := a + 56
  ebp := f.ebp
  esi := f.esi
  edi := f.edi
  ds := f.ds.toUInt16
  eip := f.eip
  cs := f.cs.toUInt16
  eflags := f.eflags

def startContext (entryPoint stackBase : UInt32) : Context where
  eax := 0
  ecx := 0
  edx := 0
  ebx := 0
  esp := stackBase + 4096
  ebp := 0
  esi := 0
  edi := 0
  ds := 0x10
  eip := entryPoint
  cs := 0x08
  eflags := 0x0202

/-! ## Leaving the stub -/

/-- The stub loads the context of the frame that it is given in `eax`. -/
theorem irqCommonStubLeave_context {c : Cpu} {f : Frame}
    (hframe : c.mem.HoldsWords c.regs.eax f.words) :
    c.irqCommonStubLeave.regs.context = f.context c.regs.eax := by
  simp only [Frame.words, holdsWords_cons] at hframe
  obtain ⟨hds, hedi, hesi, hebp, -, hebx, hedx, hecx, heax, hframe⟩ := hframe
  obtain ⟨-, -, heip, hcs, heflags, -⟩ := hframe
  have hskip : ∀ a : UInt32, a + 8 = a + 4 + 4 := fun a =>
    (UInt32.add_assoc a 4 4).symm
  have hesp : c.regs.eax + 4 + 4 + 4 + 4 + 4 + 4 + 4 + 4 + 4 + 4 + 4 + 4 + 4 +
      4 = c.regs.eax + 56 := by
    simp only [UInt32.add_assoc]
    rfl
  simp only [Registers.context, Frame.context, Cpu.irqCommonStubLeave, Cpu.pop,
    Cpu.movSegments, Cpu.popa, Cpu.addEsp, Cpu.iret, hskip, hesp, hds, hedi,
    hesi, hebp, hebx, hedx, hecx, heax, heip, hcs, heflags]

/-! ## Entering the stub -/

/-- The frame that the stub pushes for `irq0`. -/
def Registers.frame (g : Registers) : Frame where
  ds := UInt32.ofNat (g.eax.toNat / 2 ^ 16 * 2 ^ 16 + g.ds.toNat)
  edi := g.edi
  esi := g.esi
  ebp := g.ebp
  esp := g.esp - 20
  ebx := g.ebx
  edx := g.edx
  ecx := g.ecx
  eax := g.eax
  intNo := 32
  errCode := 0
  eip := g.eip
  cs := g.cs.toUInt32
  eflags := g.eflags

/-- The frame holds the registers of the interrupted task. -/
theorem frame_context (g : Registers) :
    g.frame.context (g.esp - 56) = g.context := by
  have hds : (UInt32.ofNat (g.eax.toNat / 2 ^ 16 * 2 ^ 16 +
      g.ds.toNat)).toUInt16 = g.ds := by
    apply UInt16.toNat_inj.mp
    have hlt := g.ds.toNat_lt
    rw [UInt32.toNat_toUInt16, UInt32.toNat_ofNat']
    omega
  simp only [Frame.context, Registers.frame, Registers.context, hds,
    UInt32.sub_add_cancel, UInt16.toUInt16_toUInt32]

def Cpu.stack (c : Cpu) : UInt32 × Memory := (c.regs.esp, c.mem)

section Pushes

variable (c : Cpu) (v : UInt32)

@[simp] theorem push_regs :
    (c.push v).regs = { c.regs with esp := c.regs.esp - 4 } :=
  rfl

@[simp] theorem push_stack : (c.push v).stack = pushWord c.stack v :=
  rfl

theorem setEax_stack (eax : UInt32) :
    ({ c with regs := { c.regs with eax := eax } } : Cpu).stack = c.stack :=
  rfl

@[simp] theorem movAx_stack (ax : UInt16) : (c.movAx ax).stack = c.stack :=
  setEax_stack c _

@[simp] theorem movAx_regs (ax : UInt16) :
    (c.movAx ax).regs = { c.regs with
      eax := UInt32.ofNat (c.regs.eax.toNat / 2 ^ 16 * 2 ^ 16 + ax.toNat) } :=
  rfl

-- not for unfolding: the registers are not to be compared field by field
@[simp] theorem movSegments_stack : c.movSegments.stack = c.stack :=
  (rfl)

@[simp] theorem movSegments_esp : c.movSegments.regs.esp = c.regs.esp :=
  (rfl)

theorem pusha_stack :
    c.pusha.stack = pushWords c.stack [c.regs.eax, c.regs.ecx, c.regs.edx,
      c.regs.ebx, c.regs.esp, c.regs.ebp, c.regs.esi, c.regs.edi] := by
  simp only [Cpu.pusha, push_stack, push_regs]
  rfl

theorem pusha_regs :
    c.pusha.regs = { c.regs with esp := c.regs.esp - 32 } := by
  have hesp : c.regs.esp - 4 - 4 - 4 - 4 - 4 - 4 - 4 - 4 =
      c.regs.esp - 32 := by
    simp only [UInt32.sub_eq_add_neg, UInt32.add_assoc]
    rfl
  simp only [Cpu.pusha, push_regs, hesp]

theorem interrupt_stack :
    c.interrupt.stack = pushWords c.stack
      [c.regs.eflags, c.regs.cs.toUInt32, c.regs.eip] :=
  rfl

theorem interrupt_regs :
    c.interrupt.regs = { c.regs with
      esp := c.regs.esp - 12
      cs := 0x08
      eflags := c.regs.eflags &&& ~~~0x34300 } := by
  have hesp : c.regs.esp - 4 - 4 - 4 = c.regs.esp - 12 := by
    simp only [UInt32.sub_eq_add_neg, UInt32.add_assoc]
    rfl
  simp only [Cpu.interrupt, push_regs, hesp]

theorem irqCommonStubEnter_stack (ret : UInt32) :
    (c.irqCommonStubEnter ret).stack = pushWords c.stack
      [c.regs.eax, c.regs.ecx, c.regs.edx, c.regs.ebx, c.regs.esp,
        c.regs.ebp, c.regs.esi, c.regs.edi,
        UInt32.ofNat (c.regs.eax.toNat / 2 ^ 16 * 2 ^ 16 + c.regs.ds.toNat),
        c.regs.esp - 36, ret] := by
  have hesp : c.regs.esp - 32 - 4 = c.regs.esp - 36 := by
    simp only [UInt32.sub_eq_add_neg, UInt32.add_assoc]
    rfl
  simp only [Cpu.irqCommonStubEnter, push_stack, movSegments_stack,
    movAx_stack, pusha_stack, movSegments_esp, movAx_regs, push_regs,
    pusha_regs, hesp, pushWords, List.foldl_cons, List.foldl_nil]

/-- The stub pushes the words of the frame from the last to the first, the
address of the frame and the return address. -/
theorem irq0_stack (ret : UInt32) :
    (c.interrupt.irq0 ret).stack =
      pushWords c.stack
        (c.regs.frame.words.reverse ++ [c.regs.esp - 56, ret]) := by
  have hesp : c.regs.esp - 12 - 4 - 4 = c.regs.esp - 20 := by
    simp only [UInt32.sub_eq_add_neg, UInt32.add_assoc]
    rfl
  have hframe : c.regs.esp - 20 - 36 = c.regs.esp - 56 := by
    simp only [UInt32.sub_eq_add_neg, UInt32.add_assoc]
    rfl
  simp only [Cpu.irq0, irqCommonStubEnter_stack, push_stack, push_regs,
    interrupt_stack, interrupt_regs, hesp, hframe, Frame.words,
    Registers.frame, pushWords, List.foldl_append, List.reverse_cons,
    List.reverse_nil, List.foldl_cons, List.foldl_nil]

end Pushes

/-- `irq_handler` finds its argument above the return address: the address of
the frame. -/
theorem irq0_frame (c : Cpu) (ret : UInt32) :
    (c.interrupt.irq0 ret).mem.word ((c.interrupt.irq0 ret).regs.esp + 4) =
        c.regs.esp - 56 ∧
      (c.interrupt.irq0 ret).mem.HoldsWords (c.regs.esp - 56)
        c.regs.frame.words := by
  have hnil : c.stack.2.HoldsWords c.stack.1 [] := holdsWords_nil
  have hholds := holdsWords_pushWords hnil
    (by simp [Frame.words] :
      ([] : List UInt32).length +
        (c.regs.frame.words.reverse ++ [c.regs.esp - 56, ret]).length ≤ 2 ^ 30)
  rw [← irq0_stack, List.append_nil, List.reverse_append,
    List.reverse_reverse] at hholds
  obtain ⟨-, harg, hwords⟩ := hholds
  have hesp : (c.interrupt.irq0 ret).stack.1 + 4 + 4 = c.regs.esp - 56 := by
    rw [irq0_stack, fst_pushWords, UInt32.sub_eq_add_neg, UInt32.add_assoc,
      UInt32.add_assoc, UInt32.sub_eq_add_neg]
    rfl
  rw [hesp] at hwords
  exact ⟨harg, hwords⟩

/-- The stub writes the sixteen words below the stack pointer. -/
theorem irq0_sameOn (c : Cpu) (ret : UInt32) {S : Set ℕ}
    (hS : Disjoint S (wordsAt (c.regs.esp - 64) 16)) :
    SameOn S c.mem (c.interrupt.irq0 ret).mem := by
  have hlength : (c.regs.frame.words.reverse ++
      [c.regs.esp - 56, ret]).length = 16 := by
    simp [Frame.words]
  have hesp : (pushWords c.stack
      (c.regs.frame.words.reverse ++ [c.regs.esp - 56, ret])).1 =
        c.regs.esp - 64 := by
    rw [fst_pushWords, hlength]
    rfl
  change SameOn S c.stack.2 (c.interrupt.irq0 ret).stack.2
  rw [irq0_stack]
  apply sameOn_pushWords
  rw [hesp, hlength]
  exact hS

/-! ## The stack of a new task -/

/-- The frame that `task_create` builds. -/
def startFrame (entryPoint : UInt32) : Frame where
  ds := 0x10
  edi := 0
  esi := 0
  ebp := 0
  esp := 0
  ebx := 0
  edx := 0
  ecx := 0
  eax := 0
  intNo := 0
  errCode := 0
  eip := entryPoint
  cs := 0x08
  eflags := 0x0202

theorem startFrame_context (entryPoint stackBase : UInt32) :
    (startFrame entryPoint).context (stackBase + 4096 - 56) =
      startContext entryPoint stackBase := by
  simp only [Frame.context, startFrame, startContext, UInt32.sub_add_cancel]
  rfl

theorem newStackWords_pushed (m : Memory) (entryPoint stackTop : UInt32) :
    (pushWords (stackTop, m) (newStackWords entryPoint)).1 = stackTop - 56 ∧
      (pushWords (stackTop, m) (newStackWords entryPoint)).2.HoldsWords
        (stackTop - 56) (startFrame entryPoint).words := by
  have hesp : (pushWords (stackTop, m) (newStackWords entryPoint)).1 =
      stackTop - 56 := by
    rw [fst_pushWords]
    rfl
  have hnil : (stackTop, m).2.HoldsWords (stackTop, m).1 [] :=
    holdsWords_nil
  have hholds := holdsWords_pushWords hnil
    (by simp [newStackWords] :
      ([] : List UInt32).length + (newStackWords entryPoint).length ≤ 2 ^ 30)
  rw [hesp, List.append_nil] at hholds
  exact ⟨hesp, hholds⟩

end BabOs.Irq
