import BabOs.Library.Stack
import BabOs.Sched.Model

/-!
# The interrupt stub and the context switch

This module embeds `irq_common_stub` of `interrupt.asm`, which saves the
registers of the running task on its stack and loads those of the task that
`irq_handler` has chosen, `irq_handler` itself, and the stack that
`task_create` builds for a new task.
-/

namespace BabOs.Irq

open Sched

/-! ## The processor -/

/-- The registers that the stub and `iret` touch.  `eip` is the one of the
task: the way of the processor through the stub is not recorded. -/
structure Registers where
  eax : UInt32
  ecx : UInt32
  edx : UInt32
  ebx : UInt32
  esp : UInt32
  ebp : UInt32
  esi : UInt32
  edi : UInt32
  eip : UInt32
  eflags : UInt32
  cs : UInt16
  ds : UInt16
  es : UInt16
  fs : UInt16
  gs : UInt16

/-- The processor and its memory. -/
structure Cpu where
  regs : Registers
  mem : Memory

namespace Cpu

def push (c : Cpu) (v : UInt32) : Cpu :=
  let p := Memory.pushWord (c.regs.esp, c.mem) v
  { regs := { c.regs with esp := p.1 }, mem := p.2 }

/-- `pop`, where `set` puts the word into its register. -/
def pop (c : Cpu) (set : Registers → UInt32 → Registers) : Cpu where
  regs := set { c.regs with esp := c.regs.esp + 4 } (c.mem.word c.regs.esp)
  mem := c.mem

def pusha (c : Cpu) : Cpu :=
  let esp := c.regs.esp
  let c := c.push c.regs.eax
  let c := c.push c.regs.ecx
  let c := c.push c.regs.edx
  let c := c.push c.regs.ebx
  let c := c.push esp
  let c := c.push c.regs.ebp
  let c := c.push c.regs.esi
  c.push c.regs.edi

/-- `popa` leaves out the word for `esp`. -/
def popa (c : Cpu) : Cpu :=
  let c := c.pop fun r v => { r with edi := v }
  let c := c.pop fun r v => { r with esi := v }
  let c := c.pop fun r v => { r with ebp := v }
  let c := c.pop fun r _ => r
  let c := c.pop fun r v => { r with ebx := v }
  let c := c.pop fun r v => { r with edx := v }
  let c := c.pop fun r v => { r with ecx := v }
  c.pop fun r v => { r with eax := v }

/-- `mov ax, v` -/
def movAx (c : Cpu) (v : UInt16) : Cpu :=
  { c with
    regs :=
      { c.regs with
        eax := UInt32.ofNat
          (c.regs.eax.toNat / 2 ^ 16 * 2 ^ 16 + v.toNat) } }

/-- `mov ds, ax`, and the same for `es`, `fs` and `gs` -/
def movSegments (c : Cpu) : Cpu :=
  let ax := c.regs.eax.toUInt16
  { c with regs := { c.regs with ds := ax, es := ax, fs := ax, gs := ax } }

/-- `add esp, n` -/
def addEsp (c : Cpu) (n : UInt32) : Cpu :=
  { c with regs := { c.regs with esp := c.regs.esp + n } }

/-- What the processor does on an interrupt whose gate has the selector `0x08`
and the flags `0x8E`: the flags `TF`, `IF`, `NT`, `RF` and `VM` are cleared.
All code runs in ring 0, so the stack is not switched. -/
def interrupt (c : Cpu) : Cpu :=
  let c := c.push c.regs.eflags
  let c := c.push c.regs.cs.toUInt32
  let c := c.push c.regs.eip
  { c with
    regs :=
      { c.regs with
        cs := 0x08
        eflags := c.regs.eflags &&& ~~~0x34300 } }

/-- `iret` to code in ring 0 -/
def iret (c : Cpu) : Cpu :=
  let c := c.pop fun r v => { r with eip := v }
  let c := c.pop fun r v => { r with cs := v.toUInt16 }
  c.pop fun r v => { r with eflags := v }

/-! ## The stub -/

/-- `irq_common_stub` up to the call of `irq_handler`, which pushes the
address `ret` behind the call. -/
def irqCommonStubEnter (c : Cpu) (ret : UInt32) : Cpu :=
  let c := c.pusha
  let c := c.movAx c.regs.ds
  let c := c.push c.regs.eax
  let c := c.movAx 0x10
  let c := c.movSegments
  let c := c.push c.regs.esp
  c.push ret

def irq0 (c : Cpu) (ret : UInt32) : Cpu :=
  let c := c.push 0
  let c := c.push 32
  c.irqCommonStubEnter ret

/-- `irq_common_stub` from the return of `irq_handler` on; the result of
`irq_handler` is in `eax`. -/
def irqCommonStubLeave (c : Cpu) : Cpu :=
  let c := { c with regs := { c.regs with esp := c.regs.eax } }
  let c := c.pop fun r v => { r with eax := v }
  let c := c.movSegments
  let c := c.popa
  let c := c.addEsp 8
  c.iret

end Cpu

/-! ## The handlers -/

/-- The variables that the timer handler changes. -/
structure Kernel where
  tasks : Tasks
  tick : ℕ

/-- `isr_t` -/
abbrev Handler := (r : UInt32) → Kernel → Option (UInt32 × Kernel)

def timerCallback (fuel : ℕ) : Handler := fun regs k =>
  match Sched.timerCallback fuel regs.toNat k.tick k.tasks with
  | none => none
  | some (esp, tick, tasks) => some (UInt32.ofNat esp, ⟨tasks, tick⟩)

def registerInterruptHandler (n : ℕ) (handler : Handler)
    (interruptHandlers : ℕ → Option Handler) : ℕ → Option Handler :=
  Function.update interruptHandlers n (some handler)

/-- `interrupt_handlers` as `vmm_init`, `timer_init` and `keyboard_init` leave
it. -/
def interruptHandlers (pageFaultHandler keyboardCallback : Handler)
    (fuel : ℕ) : ℕ → Option Handler :=
  registerInterruptHandler 33 keyboardCallback
    (registerInterruptHandler 32 (timerCallback fuel)
      (registerInterruptHandler 14 pageFaultHandler fun _ => none))

/-- `irq_handler` for the frame at `r` in the memory `m`; `int_no` is the
tenth word of the frame. -/
def irqHandler (interruptHandlers : ℕ → Option Handler) (m : Memory)
    (r : UInt32) (k : Kernel) : Option (UInt32 × Kernel) :=
  match interruptHandlers (m.word (r + 36)).toNat with
  | none => some (r, k)
  | some handler => handler r k

/-! ## The machine -/

structure Machine extends Cpu, Kernel

/-- The words that `task_create` stores with `*(--ptr)`, from the top of the
new stack down. -/
def newStackWords (entryPoint : UInt32) : List UInt32 :=
  [0x0202, -- eflags
    0x08, -- cs
    entryPoint, -- eip
    0, -- error code
    0, -- int_no
    0, 0, 0, 0, 0, 0, 0, 0, -- eax, ecx, edx, ebx, esp, ebp, esi, edi
    0x10] -- ds

/-- `task_create`, where `kmalloc` has returned `newTask` for the task and
`stackBase` for its stack. -/
def taskCreate (fuel newTask : ℕ) (entryPoint stackBase : UInt32)
    (c : Machine) : Option Machine :=
  let stackTop := stackBase + 4096
  let ptr := Memory.pushWords (stackTop, c.mem) (newStackWords entryPoint)
  match Sched.taskCreate fuel newTask stackBase.toNat c.tasks with
  | none => none
  | some tasks => some { c with mem := ptr.2, tasks := tasks }

end BabOs.Irq
