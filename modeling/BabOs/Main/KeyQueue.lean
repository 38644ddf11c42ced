import BabOs.Keyboard.Runs
import BabOs.Library.Fifo
import BabOs.Main.Exchange
import BabOs.Sync.Records

/-!
# The queue of characters under interruption

The keyboard handler and `getchar` change the buffer one statement at a time,
and other tasks and handlers run in between.  What comes out is what a queue
allows whose calls happen at once: a character is offered to it where the
handler looks for room, and taken from it where `getchar` returns.
-/

namespace BabOs.Main

open BabOs.Sched BabOs.Sync BabOs.Fifo

abbrev KeyCalls := List (Call (BitVec 8))

/-- What the statement at a location does to the queue. -/
def noteKey (l : Loc) (_ : Data) (calls : KeyCalls) : KeyCalls :=
  match l with
  | .callback .test c => calls ++ [.offer c]
  | .getchar .exit c => calls ++ [.take c]
  | _ => calls

/-- The code with a record of the calls of the queue. -/
def keyCode : Program Monitor Cond Loc (Data × KeyCalls) :=
  code.program.record noteKey

/-- The buffer holds the characters `q`. -/
def KeysQueued (v : Keyboard.Vars) (q : List (BitVec 8)) : Prop :=
  Ring.Holds Keyboard.bufferSize v.buffer v.head v.tail v.count q

/-- The buffer holds what the calls have left in the queue. -/
def KeysAtRest (x : Data × KeyCalls) : Prop :=
  ∃ q, History Keyboard.bufferSize x.2 q ∧ KeysQueued x.1.kbd q

/-- The variables when the code at a location has finished the change of the
buffer that it has begun. -/
def settleKeys (v : Keyboard.Vars) : Loc → Keyboard.Vars
  | .callback .store c =>
      { v with
        buffer := Function.update v.buffer v.tail c
        tail := (v.tail + 1).tmod Keyboard.bufferSize
        count := v.count + 1 }
  | .callback .moveTail _ =>
      { v with
        tail := (v.tail + 1).tmod Keyboard.bufferSize
        count := v.count + 1 }
  | .callback .increment _ => { v with count := v.count + 1 }
  | .getchar .moveHead _ =>
      { v with
        head := (v.head + 1).tmod Keyboard.bufferSize
        count := v.count - 1 }
  | .getchar .decrement _ => { v with count := v.count - 1 }
  | _ => v

/-- The character that `getchar` has read and not yet returned. -/
def readKey : Loc → List (BitVec 8)
  | .getchar .moveHead c | .getchar .decrement c | .getchar .exit c => [c]
  | _ => []

/-- What `getchar` has found out about `kbd_count`. -/
def FoundKeys (d : Data) : Loc → Prop
  | .getchar .wait _ => d.kbd.count = 0
  | .getchar .read _ | .getchar .moveHead _ | .getchar .decrement _ =>
      d.kbd.count ≠ 0
  | _ => True

/-- What holds when the code in the monitor stands at a location. -/
def GoodKeys (l : Loc) (x : Data × KeyCalls) : Prop :=
  (∃ q, History Keyboard.bufferSize x.2 (readKey l ++ q) ∧
    KeysQueued (settleKeys x.1.kbd l) q) ∧ FoundKeys x.1 l

section Rule

variable {d d' : Data} {calls calls' : KeyCalls} {l l' : Loc} {c : BitVec 8}
variable {act : Act Monitor Cond} {x x' : Data × KeyCalls}

/-- The statements in the monitor are those of `getchar` and of the handler. -/
theorem move_kbd (h : code.program.move l d act l' d')
    (hl : l.inside = some .kbd) :
    (∃ p c, l = .getchar p c ∧ getchar c d p = (act, l', d')) ∨
      ∃ p c, l = .callback p c ∧ callback c d p = (act, l', d') := by
  change code.next l d = some (act, l', d') at h
  cases l with
  | getchar p c => exact Or.inl ⟨p, c, rfl, Option.some.inj h⟩
  | callback p c => exact Or.inr ⟨p, c, rfl, Option.some.inj h⟩
  | producer p item => cases p <;> cases hl
  | consumer p item => cases p <;> cases hl
  | idle | shell => cases hl

/-- `getchar` keeps the invariant while it is in the monitor. -/
theorem goodKeys_getchar {p : GetcharLoc}
    (h : GoodKeys (.getchar p c) (d, calls)) (hact : (getchar c d p).1.Plain) :
    GoodKeys (getchar c d p).2.1
      ((getchar c d p).2.2, noteKey (.getchar p c) d calls) := by
  obtain ⟨⟨q, hcalls, hq⟩, hfound⟩ := h
  cases p with
  | test =>
      rw [getchar]
      split_ifs with hempty
      · exact ⟨⟨q, hcalls, hq⟩, hempty⟩
      · exact ⟨⟨q, hcalls, hq⟩, hempty⟩
  | read =>
      cases q with
      | nil => exact absurd (Ring.Holds.count_eq hq) hfound
      | cons y q =>
          obtain ⟨hhead, hpop⟩ := Ring.Holds.pop hq
          refine ⟨⟨q, ?_, hpop⟩, hfound⟩
          rw [getchar, readKey]
          exact (congrArg (fun y => History _ calls (y :: q)) hhead).mpr hcalls
  | moveHead => exact ⟨⟨q, hcalls, hq⟩, hfound⟩
  | decrement => exact ⟨⟨q, hcalls, hq⟩, trivial⟩
  | enter | wait | exit => exact absurd hact id

/-- The character that `getchar` returns is taken from the queue. -/
theorem keysAtRest_getchar {p : GetcharLoc}
    (h : GoodKeys (.getchar p c) (d, calls))
    (hact : Label.Releases .kbd
      (.call (getchar c d p).1 : Label Monitor Cond Loc)) :
    KeysAtRest ((getchar c d p).2.2, noteKey (.getchar p c) d calls) := by
  obtain ⟨⟨q, hcalls, hq⟩, hfound⟩ := h
  cases p with
  | wait => exact ⟨q, hcalls, hq⟩
  | exit => exact ⟨q, hcalls.take, hq⟩
  | test =>
      rw [getchar] at hact
      split_ifs at hact <;> exact absurd hact id
  | enter | read | moveHead | decrement => exact absurd hact id

/-- A character finds room, or the queue drops it as the handler does. -/
theorem goodKeys_callback {p : CallbackLoc}
    (h : GoodKeys (.callback p c) (d, calls))
    (hact : (callback c d p).1.Plain) :
    GoodKeys (callback c d p).2.1
      ((callback c d p).2.2, noteKey (.callback p c) d calls) := by
  obtain ⟨⟨q, hcalls, hq⟩, -⟩ := h
  cases p with
  | test =>
      have hcount := Ring.Holds.count_eq hq
      have hlength := Ring.Holds.length_le hq
      dsimp only [settleKeys] at hcount
      rw [callback]
      split_ifs with hroom
      · refine ⟨⟨q ++ [c], hcalls.accept c ?_, Ring.Holds.push hq hroom c⟩,
          trivial⟩
        rwa [hcount, Nat.cast_lt] at hroom
      · refine ⟨⟨q, hcalls.drop c ?_, hq⟩, trivial⟩
        rw [hcount, Nat.cast_lt, not_lt] at hroom
        exact le_antisymm hlength hroom
  | store | moveTail | increment | notify => exact ⟨⟨q, hcalls, hq⟩, trivial⟩
  | putchar => exact ⟨⟨q, hcalls, hq⟩, trivial⟩
  | enter | exit | iret => exact absurd hact id

theorem keysAtRest_callback {p : CallbackLoc}
    (h : GoodKeys (.callback p c) (d, calls))
    (hact : Label.Releases .kbd
      (.call (callback c d p).1 : Label Monitor Cond Loc)) :
    KeysAtRest ((callback c d p).2.2, noteKey (.callback p c) d calls) := by
  obtain ⟨⟨q, hcalls, hq⟩, -⟩ := h
  cases p with
  | exit => exact ⟨q, hcalls, hq⟩
  | test =>
      rw [callback] at hact
      split_ifs at hact <;> exact absurd hact id
  | enter | store | moveTail | increment | notify | putchar | iret =>
      exact absurd hact id

/-- Code that comes into the monitor looks at `kbd_count`. -/
theorem goodKeys_of_atTest (htest : l.AtTest) (h : KeysAtRest x) :
    GoodKeys l x := by
  cases l with
  | idle | shell => exact absurd htest id
  | producer p item => exact ⟨h, trivial⟩
  | consumer p item => exact ⟨h, trivial⟩
  | getchar p c =>
      cases p with
      | test => exact ⟨h, trivial⟩
      | enter | wait | read | moveHead | decrement | exit =>
          exact absurd htest id
  | callback p c =>
      cases p with
      | test => exact ⟨h, trivial⟩
      | enter | store | moveTail | increment | notify | exit | putchar | iret =>
          exact absurd htest id

/-- The statements outside the monitor leave the buffer alone. -/
theorem outside_kbd
    (h : Outside code.program (fun l => l.inside = some .kbd) d d') :
    d'.kbd.queue = d.kbd.queue := by
  rcases h with rfl | ⟨l, act, l', hl, hmove⟩ | ⟨h, scancode, hirq⟩
  · rfl
  · revert hl
    refine move_rule (p := fun l x => l.inside ≠ some .kbd →
      x.2.2.kbd.queue = d.kbd.queue) hmove ?_ ?_ ?_ ?_ ?_ ?_
    · exact fun _ => rfl
    · intro p item _
      cases p with
      | test =>
          rw [producer]
          split_ifs <;> rfl
      | sleep | enter | printFull | wait | store | moveTail | increment | print
      | notify | exit => rfl
    · intro p item _
      cases p with
      | test =>
          rw [consumer]
          split_ifs <;> rfl
      | sleep | enter | printEmpty | wait | read | moveHead | decrement | print
      | notify | exit => rfl
    · exact fun _ _ => rfl
    · intro p c hl
      cases p with
      | enter => rfl
      | test | wait | read | moveHead | decrement | exit => exact absurd rfl hl
    · intro p c hl
      cases p with
      | enter | putchar | iret => rfl
      | test | store | moveTail | increment | notify | exit =>
          exact absurd rfl hl
  · have hkbd := congrArg (fun x => x.1.kbd.queue) hirq
    exact hkbd.symm.trans (Keyboard.queue_decode scancode d.kbd)

theorem KeysAtRest.congr (hqueue : x'.1.kbd.queue = x.1.kbd.queue)
    (hcalls : x'.2 = x.2) (h : KeysAtRest x) : KeysAtRest x' := by
  simp only [Keyboard.Vars.queue, Prod.mk.injEq] at hqueue
  obtain ⟨hbuffer, hhead, htail, hcount⟩ := hqueue
  obtain ⟨q, hhistory, hq⟩ := h
  refine ⟨q, hcalls ▸ hhistory, ?_⟩
  rw [KeysQueued, hbuffer, hhead, htail, hcount]
  exact hq

theorem FoundKeys.congr (hcount : d'.kbd.count = d.kbd.count)
    (h : FoundKeys d l) : FoundKeys d' l := by
  cases l with
  | getchar p c =>
      cases p with
      | wait | read | moveHead | decrement =>
          rw [FoundKeys, hcount]
          exact h
      | enter | test | exit => trivial
  | idle | producer | consumer | shell | callback => trivial

theorem GoodKeys.congr (hqueue : x'.1.kbd.queue = x.1.kbd.queue)
    (hcalls : x'.2 = x.2) (h : GoodKeys l x) : GoodKeys l x' := by
  simp only [Keyboard.Vars.queue, Prod.mk.injEq] at hqueue
  obtain ⟨hbuffer, hhead, htail, hcount⟩ := hqueue
  obtain ⟨⟨q, hhistory, hq⟩, hfound⟩ := h
  refine ⟨⟨q, hcalls ▸ hhistory, ?_⟩, ?_⟩
  · rw [KeysQueued, settleKeys.eq_def] at hq ⊢
    cases l with
    | getchar p c =>
        cases p <;> simpa only [hbuffer, hhead, htail, hcount] using hq
    | callback p c =>
        cases p <;> simpa only [hbuffer, hhead, htail, hcount] using hq
    | idle | producer | consumer | shell =>
        simpa only [hbuffer, hhead, htail, hcount] using hq
  · exact hfound.congr hcount

theorem noteKey_outside (hl : l.inside ≠ some .kbd) :
    noteKey l d calls = calls := by
  cases l with
  | callback p c =>
      cases p with
      | test => exact absurd rfl hl
      | enter | store | moveTail | increment | notify | exit | putchar | iret =>
          rfl
  | getchar p c =>
      cases p with
      | exit => exact absurd rfl hl
      | enter | test | wait | read | moveHead | decrement => rfl
  | idle | producer | consumer | shell => rfl

theorem keysRule :
    MonitorRule keyCode .kbd (fun l => l.inside = some .kbd) KeysAtRest
      GoodKeys where
  enters hentry hrest := goodKeys_of_atTest (atTest_of_entry hentry.of_record) hrest
  moves := by
    rintro l ⟨d, calls⟩ act l' ⟨d', calls'⟩ hl hgood ⟨hmove, rfl⟩ hact
    rcases move_kbd hmove hl with ⟨p, c, rfl, hnext⟩ | ⟨p, c, rfl, hnext⟩
    · have hgood' := goodKeys_getchar hgood (by rwa [hnext])
      rwa [hnext] at hgood'
    · have hgood' := goodKeys_callback hgood (by rwa [hnext])
      rwa [hnext] at hgood'
  leaves := by
    rintro l ⟨d, calls⟩ act l' ⟨d', calls'⟩ hgood ⟨hmove, rfl⟩ hact
    rcases move_kbd hmove (inside_of_releases hmove hact) with
      ⟨p, c, rfl, hnext⟩ | ⟨p, c, rfl, hnext⟩
    · have hrest := keysAtRest_getchar hgood (by rwa [hnext])
      rwa [hnext] at hrest
    · have hrest := keysAtRest_callback hgood (by rwa [hnext])
      rwa [hnext] at hrest
  outside := by
    intro x x' h
    obtain ⟨houtside, hnote⟩ := h.of_record
    have hcalls : x'.2 = x.2 := by
      rcases hnote with hsame | ⟨l, hl, hnote⟩
      · exact hsame
      · rw [hnote]
        exact noteKey_outside hl
    have hqueue := outside_kbd houtside
    exact ⟨fun h => h.congr hqueue hcalls, fun l h => h.congr hqueue hcalls⟩

end Rule

/-! ## Runs -/

section Runs

variable {fuel : ℕ} {a : Addresses} {T : Tasks} {kbdBuffer : ℤ → BitVec 8}
variable {buffer : ℤ → BitVec 32} {c₀ c : Config Monitor Cond Loc Data}
variable {calls : KeyCalls}

theorem Booted.keysMonitored (h : Booted a kbdBuffer buffer c₀) :
    Monitored .kbd (fun l => l.inside = some .kbd) KeysAtRest GoodKeys
      (c₀.record ([] : KeyCalls)) := by
  refine Monitored.free ?_ (h.places_eq .kbd) ?_
  · exact congrArg Mutex.locked (h.mutex .kbd)
  · refine ⟨[], History.nil, ?_⟩
    rw [KeysQueued, Config.record, h.data]
    exact Ring.holds_nil kbdBuffer (by decide)

/-- However the tasks and the handlers are interleaved, the calls of the queue
are those of a queue whose calls happen at once: no character is taken twice, out
of order or without having been offered, and none is dropped unless the queue is
full.  The buffer holds this queue whenever the monitor is free. -/
theorem keyQueue_linearizable
    (hboot : boot fuel a T kbdBuffer buffer = some c₀) :
    (∀ c, Run code.program codeTimer (fun _ _ => True) c₀ c →
      ∃ calls, Run keyCode codeTimer (fun _ _ => True) (c₀.record [])
        (c.record calls)) ∧
    ∀ (c : Config Monitor Cond Loc Data) (calls : KeyCalls),
      Run keyCode codeTimer (fun _ _ => True) (c₀.record [])
        (c.record calls) →
      ∃ q, History 256 calls q ∧ (taken calls ++ q).Sublist (offered calls) ∧
        ((offered calls).length ≤ 256 → taken calls ++ q = offered calls) ∧
        ((c.k.mutex .kbd).locked = 0 →
          c.data.kbd.count = q.length ∧ q.length ≤ 256 ∧
          0 ≤ c.data.kbd.head ∧ c.data.kbd.head < 256 ∧
          c.data.kbd.tail = (c.data.kbd.head + c.data.kbd.count) % 256 ∧
          ∀ i (hi : i < q.length),
            c.data.kbd.buffer ((c.data.kbd.head + i) % 256) = q[i]) := by
  have hbooted := boot_booted hboot
  refine ⟨fun c hrun => hrun.record [], fun c calls hrun => ?_⟩
  have hmonitored := (run_monitored (guards .kbd).record keysRule
    (fun t f hf => ?_) hbooted.keysMonitored hrun).2
  · cases hmonitored with
    | free hlocked hplaces hrest =>
        obtain ⟨q, hhistory, hq⟩ := hrest
        refine ⟨q, hhistory, hhistory.sublist, hhistory.eq_of_length_le,
          fun _ => ⟨hq.count_eq, hq.length_le, hq.head_nonneg, hq.head_lt,
            hq.tail_eq, hq.get⟩⟩
    | held hlocked hplaces hgood =>
        obtain ⟨⟨q, hhistory, hq⟩, -⟩ := hgood
        exact ⟨_, hhistory, hhistory.sublist, hhistory.eq_of_length_le,
          fun hfree => absurd hfree hlocked⟩
  · rcases hbooted.stack_eq t with hnil | ⟨l, hstart, -⟩
    · rw [Config.record, hnil] at hf
      cases hf
    · rw [Config.record, hstart, List.mem_singleton] at hf
      subst hf
      trivial

end Runs

/-- A key has been pressed while the first task idles. -/
theorem keyQueue_linearizable_key :
    ∃ (c₀ c : Config Monitor Cond Loc Data) (calls : KeyCalls),
      boot 4 someAddresses zeroTasks (fun _ => 0) (fun _ => 0) = some c₀ ∧
      Run keyCode codeTimer (fun _ _ => True) (c₀.record [])
        (c.record calls) ∧
      ∃ x, History 256 calls [x] := by
  obtain ⟨c₀, hboot⟩ := exists_boot
  have hruns : ((boot 4 someAddresses zeroTasks (fun _ => 0) fun _ => 0).bind
      (runChoices code (fun _ _ => True) 4
        ([.irq 0x1E] ++ List.replicate 7 .go))).any
      (fun c => (c.k.mutex .kbd).locked = 0 ∧ c.data.kbd.count = 1) = true := by
    decide +kernel
  rw [hboot, Option.bind_some] at hruns
  obtain ⟨c, hrun, hfree, hcount⟩ :=
    exists_run code (fun _ _ => True) 4 _ c₀ _ hruns
  obtain ⟨hrecord, hqueue⟩ := keyQueue_linearizable hboot
  obtain ⟨calls, hrun'⟩ := hrecord c hrun
  obtain ⟨q, hhistory, -, -, hheld⟩ := hqueue c calls hrun'
  have hlength : (q.length : ℤ) = 1 := (hheld hfree).1.symm.trans hcount
  obtain ⟨x, rfl⟩ := List.length_eq_one_iff.mp (Nat.cast_eq_one.mp hlength)
  exact ⟨c₀, c, calls, hboot, hrun', x, hhistory⟩

end BabOs.Main
