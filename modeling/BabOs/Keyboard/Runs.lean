import BabOs.Keyboard.Translation
import BabOs.Library.Ring
import BabOs.Sync.Exclusion
import BabOs.Terminal.Bounds

/-!
# The queue of characters

Whatever keys are pressed and however often characters are taken, the buffer is
a queue of the characters that found room in it, and `getchar` returns them in
their order.
-/

namespace BabOs.Keyboard

open BabOs.Sync

/-! ## What was typed -/

/-- A scancode arrives, or a character is taken. -/
inductive Event where
  | scancode (b : BitVec 8)
  | getchar

/-- The scancodes that have arrived, the last one first, the characters that
found room, and the number of characters taken. -/
structure Log where
  codes : List (BitVec 8)
  accepted : List (BitVec 8)
  taken : ℕ

/-- The character of the scancode `b`, if it has one and finds room. -/
def Log.accepts (L : Log) (b : BitVec 8) : List (BitVec 8) :=
  if L.accepted.length < L.taken + 256 then (translate L.codes b).toList else []

def Log.next (L : Log) : Event → Log
  | .scancode b =>
      { L with codes := b :: L.codes, accepted := L.accepted ++ L.accepts b }
  | .getchar => { L with taken := L.taken + 1 }

/-- What the events amount to. -/
def logOf (events : List Event) : Log :=
  events.foldl Log.next ⟨[], [], 0⟩

/-- The calls of `keyboard_callback` and of `getchar` for the events, each of
them made by any task when the one before it has returned.  `getchar` is called
only when a character is queued, and `returned` lists what it has returned. -/
inductive Run (font : Terminal.Font) (s₀ : State) :
    (events : List Event) → (returned : List (BitVec 8)) → State → Prop
  | nil : Run font s₀ [] [] s₀
  | scancode {events : List Event} {returned : List (BitVec 8)} {s s' : State}
      {b : BitVec 8} {fuel current regs regs' : ℕ}
      (hrun : Run font s₀ events returned s)
      (hcall : keyboardCallback font fuel current regs b s = some (regs', s')) :
      Run font s₀ (events ++ [.scancode b]) returned s'
  | getchar {events : List Event} {returned : List (BitVec 8)} {s s' : State}
      {c : BitVec 8} {fuel current : ℕ}
      (hrun : Run font s₀ events returned s) (hqueued : 0 < s.count)
      (hcall : Keyboard.getchar fuel current s = some (c, s')) :
      Run font s₀ (events ++ [.getchar]) (returned ++ [c]) s'

/-! ## The calls -/

/-- The monitor is free. -/
def State.Free (s : State) : Prop := (s.kernel.mutex ()).locked = 0

section Calls

variable {font : Terminal.Font} {fuel current regs : ℕ} {b c : BitVec 8}
variable {codes : List (BitVec 8)} {k : Kernel Unit (Fin 8)} {s : State}

theorem monitorEnter_free (hfree : (k.mutex ()).locked = 0) :
    ∃ k', monitorEnter fuel current k = some k' := by
  refine ⟨k.setMutex () { k.mutex () with
    locked := 1, owner := some current }, ?_⟩
  rw [monitorEnter, mutexTest, if_neg (not_not.mpr hfree)]

theorem queue_push {s : State} {v : Vars} (k : Kernel Unit (Fin 8))
    (hqueue : v.queue = s.queue) (c : BitVec 8) :
    (push c { s with toVars := v, kernel := k }).queue = (push c s).queue := by
  simp only [Vars.queue, Prod.mk.injEq] at hqueue
  obtain ⟨hbuffer, hhead, htail, hcount⟩ := hqueue
  simp only [push, hbuffer, hhead, htail, hcount]
  split_ifs <;> simp only [Vars.queue, hbuffer, hhead, htail, hcount]

theorem flags_push {s : State} (h : Flags codes s.toVars)
    (k : Kernel Unit (Fin 8)) (terminal : Terminal.State) (c : BitVec 8) :
    Flags codes { push c s with
      kernel := k, terminal := terminal }.toVars := by
  rw [push]
  split_ifs
  · exact ⟨h.left, h.right, h.caps⟩
  · exact ⟨h.left, h.right, h.caps⟩

/-- `keyboard_callback` returns, keeps the flags up to date, and puts into the
buffer what the scancode yields. -/
theorem keyboardCallback_spec (hflags : Flags codes s.toVars)
    (hfree : s.Free) :
    ∃ s', keyboardCallback font fuel current regs b s = some (regs, s') ∧
      Flags (b :: codes) s'.toVars ∧ s'.Free ∧
      s'.queue = match translate codes b with
        | none => s.queue
        | some c => (push c s).queue := by
  obtain ⟨v, hdecode, hflags', hqueue⟩ := decode_spec hflags b
  obtain ⟨k, hk⟩ : ∃ k, monitorEnter fuel current s.kernel = some k :=
    monitorEnter_free hfree
  rw [keyboardCallback, hdecode]
  cases translate codes b with
  | none => exact ⟨_, rfl, hflags', hfree, hqueue⟩
  | some c =>
      dsimp only
      rw [hk]
      exact ⟨_, rfl, flags_push hflags' _ _ c, locked_mutexUnlock,
        queue_push k hqueue c⟩

theorem getchar_spec (hflags : Flags codes s.toVars) (hfree : s.Free)
    (hqueued : s.count ≠ 0) :
    ∃ s', getchar fuel current s = some (s.buffer s.head, s') ∧
      Flags codes s'.toVars ∧ s'.Free ∧
      s'.queue = (s.buffer, (s.head + 1).tmod bufferSize, s.tail,
        s.count - 1) := by
  obtain ⟨k, hk⟩ : ∃ k, monitorEnter fuel current s.kernel = some k :=
    monitorEnter_free hfree
  rw [getchar, hk]
  dsimp only
  rw [if_neg hqueued]
  exact ⟨_, rfl, ⟨hflags.left, hflags.right, hflags.caps⟩,
    locked_mutexUnlock, rfl⟩

end Calls

/-! ## The queue -/

/-- The buffer holds the characters `q`, the oldest one first. -/
def State.Queues (s : State) (q : List (BitVec 8)) : Prop :=
  Ring.Holds bufferSize s.buffer s.head s.tail s.count q

/-- The state is the one that the log amounts to. -/
structure Refines (L : Log) (returned : List (BitVec 8)) (s : State) :
    Prop where
  flags : Flags L.codes s.toVars
  free : s.Free
  taken : returned.length = L.taken
  queue : ∃ q, s.Queues q ∧ L.accepted = returned ++ q

section Queue

variable {font : Terminal.Font} {fuel current regs : ℕ} {b c : BitVec 8}
variable {q returned : List (BitVec 8)} {s s' : State} {L : Log}

theorem State.Queues.congr (h : s.Queues q) (hqueue : s'.queue = s.queue) :
    s'.Queues q := by
  simp only [Vars.queue, Prod.mk.injEq] at hqueue
  obtain ⟨hbuffer, hhead, htail, hcount⟩ := hqueue
  rw [State.Queues, hbuffer, hhead, htail, hcount]
  exact h

/-- A character finds room if fewer than `256` are queued. -/
theorem State.Queues.push (h : s.Queues q) (c : BitVec 8) :
    (push c s).Queues (q ++ if q.length < 256 then [c] else []) := by
  have hcount : s.count < bufferSize ↔ q.length < 256 := by
    rw [h.count_eq, Nat.cast_lt, bufferSize]
  rw [Keyboard.push]
  by_cases hroom : s.count < bufferSize
  · rw [if_pos hroom, if_pos (hcount.mp hroom)]
    exact Ring.Holds.push h hroom c
  · rw [if_neg hroom, if_neg (hcount.not.mp hroom), List.append_nil]
    exact h

theorem Refines.scancode (h : Refines L returned s)
    (hflags : Flags (b :: L.codes) s'.toVars) (hfree : s'.Free)
    (hqueue : s'.queue = match translate L.codes b with
      | none => s.queue
      | some c => (push c s).queue) :
    Refines (L.next (.scancode b)) returned s' := by
  obtain ⟨q, hq, haccepted⟩ := h.queue
  refine ⟨hflags, hfree, h.taken, ?_⟩
  have hroom : L.accepted.length < L.taken + 256 ↔ q.length < 256 := by
    rw [haccepted, List.length_append, h.taken]
    omega
  rw [Log.next, Log.accepts]
  cases hchar : translate L.codes b with
  | none =>
      rw [hchar] at hqueue
      refine ⟨q, hq.congr hqueue, ?_⟩
      simp [haccepted]
  | some c =>
      rw [hchar] at hqueue
      refine ⟨_, (hq.push c).congr hqueue, ?_⟩
      rw [haccepted] at hroom
      simp only [haccepted, hroom, Option.toList_some, List.append_assoc]

theorem Refines.getchar (h : Refines L returned s) (hqueued : 0 < s.count)
    (hflags : Flags L.codes s'.toVars) (hfree : s'.Free)
    (hqueue : s'.queue = (s.buffer, (s.head + 1).tmod bufferSize, s.tail,
      s.count - 1)) :
    Refines (L.next .getchar) (returned ++ [s.buffer s.head]) s' := by
  obtain ⟨q, hq, haccepted⟩ := h.queue
  cases q with
  | nil =>
      have hcount : s.count = 0 := hq.count_eq
      exact absurd hcount hqueued.ne'
  | cons c q =>
      obtain ⟨hfirst, hrest⟩ := Ring.Holds.pop hq
      simp only [Vars.queue, Prod.mk.injEq] at hqueue
      obtain ⟨hbuffer, hhead, htail, hcount⟩ := hqueue
      refine ⟨hflags, hfree, ?_, q, ?_, ?_⟩
      · rw [List.length_append, h.taken]
        rfl
      · rw [State.Queues, hbuffer, hhead, htail, hcount]
        exact hrest
      · rw [hfirst, List.append_assoc]
        exact haccepted

end Queue

/-! ## Runs -/

section Runs

variable {font : Terminal.Font} {k : Kernel Unit (Fin 8)}
variable {buffer : ℤ → BitVec 8} {terminal : Terminal.State}
variable {events : List Event} {returned : List (BitVec 8)} {s : State}

theorem refines_keyboardInit :
    Refines ⟨[], [], 0⟩ [] (keyboardInit k buffer terminal) where
  flags := ⟨rfl, rfl, rfl⟩
  free := rfl
  taken := rfl
  queue := ⟨[], Ring.holds_nil buffer (by decide), rfl⟩

theorem logOf_concat (events : List Event) (e : Event) :
    logOf (events ++ [e]) = (logOf events).next e := by
  rw [logOf, List.foldl_concat]
  rfl

theorem Run.refines
    (hrun : Run font (keyboardInit k buffer terminal) events returned s) :
    Refines (logOf events) returned s := by
  induction hrun with
  | nil => exact refines_keyboardInit
  | scancode hrun hcall ih =>
      obtain ⟨s', hcall', hflags, hfree, hqueue⟩ :=
        keyboardCallback_spec ih.flags ih.free
      rw [hcall'] at hcall
      obtain ⟨rfl, rfl⟩ := Prod.mk.inj (Option.some.inj hcall)
      rw [logOf_concat]
      exact ih.scancode hflags hfree hqueue
  | getchar hrun hqueued hcall ih =>
      obtain ⟨s', hcall', hflags, hfree, hqueue⟩ :=
        getchar_spec ih.flags ih.free hqueued.ne'
      rw [hcall'] at hcall
      obtain ⟨rfl, rfl⟩ := Prod.mk.inj (Option.some.inj hcall)
      rw [logOf_concat]
      exact ih.getchar hqueued hflags hfree hqueue

/-- In every run the buffer is in order, and what was returned and what is
queued are together the characters that found room, in their order.  Every
call returns: `keyboard_callback`, which leaves a full buffer alone, and
`getchar` when a character is queued. -/
theorem run_queue
    (hrun : Run font (keyboardInit k buffer terminal) events returned s) :
    (0 ≤ s.count ∧ s.count ≤ 256) ∧ s.tail = (s.head + s.count) % 256 ∧
      (∃ queued : List (BitVec 8),
        (logOf events).accepted = returned ++ queued ∧
        s.count = queued.length ∧
        ∀ i (hi : i < queued.length),
          s.buffer ((s.head + i) % 256) = queued[i]) ∧
      (∀ fuel current regs b, ∃ s',
        keyboardCallback font fuel current regs b s = some (regs, s') ∧
        (s.count = 256 → s'.queue = s.queue)) ∧
      ∀ fuel current, 0 < s.count →
        ∃ c s', getchar fuel current s = some (c, s') := by
  have hrefines := hrun.refines
  obtain ⟨q, hq, haccepted⟩ := hrefines.queue
  have hcount := hq.count_eq
  have hlength := hq.length_le
  rw [bufferSize] at hlength
  refine ⟨by omega, hq.tail_eq, ⟨q, haccepted, hcount, hq.get⟩,
    fun fuel current regs b => ?_, fun fuel current hqueued => ?_⟩
  · obtain ⟨s', hcall, -, -, hqueue⟩ :=
      keyboardCallback_spec (b := b) hrefines.flags hrefines.free
    refine ⟨s', hcall, fun hfull => hqueue.trans ?_⟩
    cases translate (logOf events).codes b with
    | none => rfl
    | some c =>
        have hroom : ¬s.count < bufferSize := by
          rw [hfull]
          decide
        dsimp only
        rw [push, if_neg hroom]
  · obtain ⟨s', hcall, -⟩ :=
      getchar_spec hrefines.flags hrefines.free hqueued.ne'
    exact ⟨_, s', hcall⟩

end Runs

def idleKeyboard : State :=
  keyboardInit
    { tasks :=
        { task := fun _ =>
            { esp := 0
              kstack := 0
              state := .ready
              sleepTicks := 0
              next := none
              waitNext := none }
          runningTask := some 0
          readyQueue := some 0 }
      mutex := fun _ => { locked := 0, owner := none, waiters := none }
      cond := fun _ => none
      tick := 0 }
    (fun _ => 0)
    (Terminal.terminalInitialize Terminal.xga ⟨fun _ => 0, []⟩)

def blankFont : Terminal.Font where
  basic _ _ := 0
  around _ _ := 0

/-- The left shift key is held while the key of the letter is pressed. -/
theorem run_queue_letter :
    ∃ s, Run blankFont idleKeyboard
        [.scancode 0x2A, .scancode 0x1E, .getchar] [0x41] s ∧
      s.count = 0 := by
  have hrun₀ : Run blankFont idleKeyboard [] [] idleKeyboard := Run.nil
  obtain ⟨-, -, -, hreturns₀, -⟩ := run_queue hrun₀
  obtain ⟨s₁, hcall₁, -⟩ := hreturns₀ 0 0 0 0x2A
  have hrun₁ := hrun₀.scancode hcall₁
  obtain ⟨-, -, -, hreturns₁, -⟩ := run_queue hrun₁
  obtain ⟨s₂, hcall₂, -⟩ := hreturns₁ 0 0 0 0x1E
  have hrun₂ := hrun₁.scancode hcall₂
  obtain ⟨-, -, ⟨queued, haccepted, hcount, -⟩, -, hreturns₂⟩ :=
    run_queue hrun₂
  have hlog : (logOf [.scancode 0x2A, .scancode 0x1E]).accepted = [0x41] := by
    decide
  obtain rfl : [0x41] = queued := hlog.symm.trans haccepted
  have hqueued : 0 < s₂.count := by
    rw [hcount]
    decide
  obtain ⟨c, s₃, hcall₃⟩ := hreturns₂ 0 0 hqueued
  have hrun₃ := hrun₂.getchar hqueued hcall₃
  obtain ⟨-, -, ⟨rest, hrest, hcount₃, -⟩, -⟩ := run_queue hrun₃
  have hlog₃ : (logOf [.scancode 0x2A, .scancode 0x1E, .getchar]).accepted =
      [0x41] := by
    decide
  obtain ⟨rfl, rfl⟩ : 0x41 = c ∧ [] = rest :=
    List.cons.inj (hlog₃.symm.trans hrest)
  exact ⟨s₃, hrun₃, hcount₃⟩

end BabOs.Keyboard
