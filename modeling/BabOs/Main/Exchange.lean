import BabOs.Library.Ring
import BabOs.Main.Tasks
import BabOs.Sync.Regions

/-!
# The buffer of the producer and the consumer

The buffer is a queue of the items that are produced and not yet consumed.  It
is changed one statement at a time, so the invariant says at each statement
what the ones after it still have to do.
-/

namespace BabOs.Main

open BabOs.Sched BabOs.Sync

/-- The buffer holds what was produced and not yet consumed. -/
def AtRest (d : Data) : Prop :=
  ∃ q, Ring.Holds bufferSize d.buffer d.head d.tail d.count q ∧
    d.produced = d.consumed ++ q

/-- The data when the code at a location has finished the change of the buffer
that it has begun. -/
def settle (d : Data) : Loc → Data
  | .producer .moveTail _ =>
      { d with tail := (d.tail + 1).tmod bufferSize, count := d.count + 1 }
  | .producer .increment _ => { d with count := d.count + 1 }
  | .consumer .moveHead _ =>
      { d with head := (d.head + 1).tmod bufferSize, count := d.count - 1 }
  | .consumer .decrement _ => { d with count := d.count - 1 }
  | _ => d

/-- What the code at a location has found out about `count`. -/
def Found (d : Data) : Loc → Prop
  | .producer .printFull _ | .producer .wait _ => d.count = bufferSize
  | .producer .store _ => d.count ≠ bufferSize
  | .consumer .printEmpty _ | .consumer .wait _ => d.count = 0
  | .consumer .read _ => d.count ≠ 0
  | _ => True

/-- What holds when the code in the monitor stands at a location. -/
def Good (l : Loc) (d : Data) : Prop :=
  AtRest (settle d l) ∧ Found d l

section Rule

variable {d d' : Data} {l l' : Loc} {act : Act Monitor Cond}

theorem atRest_initialData (kbdBuffer : ℤ → BitVec 8) (buffer : ℤ → BitVec 32) :
    AtRest (initialData kbdBuffer buffer) :=
  ⟨[], Ring.holds_nil buffer (by decide), rfl⟩

theorem AtRest.store (h : AtRest d) (hroom : d.count ≠ bufferSize)
    (item : BitVec 32) :
    AtRest { d with
      buffer := Function.update d.buffer d.tail item
      tail := (d.tail + 1).tmod bufferSize
      count := d.count + 1
      produced := d.produced ++ [item] } := by
  obtain ⟨q, hq, hproduced⟩ := h
  have hcount := hq.count_eq
  have hlength := hq.length_le
  refine ⟨q ++ [item], hq.push (by omega) item, ?_⟩
  rw [hproduced, List.append_assoc]

theorem AtRest.read (h : AtRest d) (hsome : d.count ≠ 0) :
    AtRest { d with
      head := (d.head + 1).tmod bufferSize
      count := d.count - 1
      consumed := d.consumed ++ [d.buffer d.head] } := by
  obtain ⟨q, hq, hproduced⟩ := h
  cases q with
  | nil => exact absurd hq.count_eq hsome
  | cons x q =>
      obtain ⟨hhead, hpop⟩ := hq.pop
      refine ⟨q, hpop, ?_⟩
      rw [hproduced, hhead, List.append_assoc, List.singleton_append]

/-- The producer keeps the invariant while it is in the monitor. -/
theorem good_producer {item : BitVec 32} {p : ProducerLoc}
    (h : Good (.producer p item) d) (hact : (producer item d p).1.Plain) :
    Good (producer item d p).2.1 (producer item d p).2.2 := by
  obtain ⟨hrest, hfound⟩ := h
  cases p with
  | test =>
      rw [producer]
      split_ifs with hfull
      · exact ⟨hrest, hfull⟩
      · exact ⟨hrest, hfull⟩
  | store => exact ⟨hrest.store hfound item, trivial⟩
  | printFull => exact ⟨hrest, hfound⟩
  | moveTail | increment | print | notify => exact ⟨hrest, trivial⟩
  | sleep | enter | wait | exit => exact absurd hact id

/-- The producer has finished what it began when it leaves the monitor. -/
theorem atRest_producer {item : BitVec 32} {p : ProducerLoc}
    (h : Good (.producer p item) d)
    (hact : Label.Releases .buffer
      (.call (producer item d p).1 : Label Monitor Cond Loc)) :
    AtRest (producer item d p).2.2 := by
  cases p with
  | wait | exit => exact h.1
  | test =>
      rw [producer]
      split_ifs <;> exact h.1
  | sleep | enter | printFull | store | moveTail | increment | print
  | notify => exact absurd hact id

theorem good_consumer {item : BitVec 32} {p : ConsumerLoc}
    (h : Good (.consumer p item) d) (hact : (consumer item d p).1.Plain) :
    Good (consumer item d p).2.1 (consumer item d p).2.2 := by
  obtain ⟨hrest, hfound⟩ := h
  cases p with
  | test =>
      rw [consumer]
      split_ifs with hempty
      · exact ⟨hrest, hempty⟩
      · exact ⟨hrest, hempty⟩
  | read => exact ⟨hrest.read hfound, trivial⟩
  | printEmpty => exact ⟨hrest, hfound⟩
  | moveHead | decrement | print | notify => exact ⟨hrest, trivial⟩
  | sleep | enter | wait | exit => exact absurd hact id

theorem atRest_consumer {item : BitVec 32} {p : ConsumerLoc}
    (h : Good (.consumer p item) d)
    (hact : Label.Releases .buffer
      (.call (consumer item d p).1 : Label Monitor Cond Loc)) :
    AtRest (consumer item d p).2.2 := by
  cases p with
  | wait | exit => exact h.1
  | test =>
      rw [consumer]
      split_ifs <;> exact h.1
  | sleep | enter | printEmpty | read | moveHead | decrement | print
  | notify => exact absurd hact id

/-- Code that comes into the monitor looks at `count`. -/
theorem good_of_atTest (htest : l.AtTest) (h : AtRest d) : Good l d := by
  cases l with
  | idle | shell => exact absurd htest id
  | producer p item =>
      cases p with
      | test => exact ⟨h, trivial⟩
      | sleep | enter | printFull | wait | store | moveTail | increment | print
      | notify | exit => exact absurd htest id
  | consumer p item =>
      cases p with
      | test => exact ⟨h, trivial⟩
      | sleep | enter | printEmpty | wait | read | moveHead | decrement | print
      | notify | exit => exact absurd htest id
  | getchar p c => exact ⟨h, trivial⟩
  | callback p c => exact ⟨h, trivial⟩

theorem atTest_of_entry {m : Monitor} (h : Entry code.program m l) :
    l.AtTest := by
  obtain ⟨l₀, d, d', hmove | ⟨v, hmove⟩⟩ := h
  · exact ((calls_of_move hmove).lock m rfl).2
  · exact ((calls_of_move hmove).wait v m rfl).2.2

/-- The statements outside the monitor leave the buffer alone. -/
theorem outside_buffer
    (h : Outside code.program (fun l => l.inside = some .buffer) d d') :
    ∃ kbd, d' = { d with kbd := kbd } := by
  rcases h with rfl | ⟨l, act, l', hl, hmove⟩ | ⟨h, scancode, hirq⟩
  · exact ⟨_, rfl⟩
  · revert hl
    refine move_rule (p := fun l x => l.inside ≠ some .buffer →
      ∃ kbd, x.2.2 = { d with kbd := kbd }) hmove ?_ ?_ ?_ ?_ ?_ ?_
    · exact fun _ => ⟨_, rfl⟩
    · intro p item hl
      cases p with
      | sleep | enter => exact ⟨_, rfl⟩
      | test | printFull | wait | store | moveTail | increment | print | notify
      | exit => exact absurd rfl hl
    · intro p item hl
      cases p with
      | sleep | enter => exact ⟨_, rfl⟩
      | test | printEmpty | wait | read | moveHead | decrement | print | notify
      | exit => exact absurd rfl hl
    · exact fun _ _ => ⟨_, rfl⟩
    · intro p c _
      cases p with
      | test =>
          rw [getchar]
          split_ifs <;> exact ⟨_, rfl⟩
      | enter | wait | read | moveHead | decrement | exit => exact ⟨_, rfl⟩
    · intro p c _
      cases p with
      | test =>
          rw [callback]
          split_ifs <;> exact ⟨_, rfl⟩
      | enter | store | moveTail | increment | notify | exit | putchar | iret =>
          exact ⟨_, rfl⟩
  · exact ⟨_, (congrArg Prod.fst hirq).symm⟩

theorem good_kbd {kbd : Keyboard.Vars} :
    Good l { d with kbd := kbd } ↔ Good l d := by
  cases l with
  | producer p item =>
      cases p <;> exact Iff.rfl
  | consumer p item =>
      cases p <;> exact Iff.rfl
  | idle | shell | getchar | callback => exact Iff.rfl

/-- The statements in the monitor are the producer's and the consumer's. -/
theorem move_buffer (h : code.program.move l d act l' d')
    (hl : l.inside = some .buffer) :
    (∃ p item, l = .producer p item ∧ producer item d p = (act, l', d')) ∨
      ∃ p item, l = .consumer p item ∧ consumer item d p = (act, l', d') := by
  change code.next l d = some (act, l', d') at h
  cases l with
  | producer p item => exact Or.inl ⟨p, item, rfl, Option.some.inj h⟩
  | consumer p item => exact Or.inr ⟨p, item, rfl, Option.some.inj h⟩
  | getchar p c => cases p <;> cases hl
  | callback p c => cases p <;> cases hl
  | idle | shell => cases hl

theorem inside_of_releases {m : Monitor}
    (hmove : code.program.move l d act l' d')
    (hact : Label.Releases m (.call act : Label Monitor Cond Loc)) :
    l.inside = some m := by
  have hchanges := changes_of_move hmove
  cases act with
  | unlock m' =>
      obtain rfl : m' = m := hact
      exact hchanges.1
  | wait v m' =>
      obtain rfl : m' = m := hact
      exact hchanges.1
  | skip | lock | signal | broadcast | sleep | iret => exact absurd hact id

theorem monitorRule :
    MonitorRule code.program .buffer (fun l => l.inside = some .buffer) AtRest
      Good where
  enters hentry hrest := good_of_atTest (atTest_of_entry hentry) hrest
  moves := by
    intro l d act l' d' hl hgood hmove hact
    rcases move_buffer hmove hl with
      ⟨p, item, rfl, hnext⟩ | ⟨p, item, rfl, hnext⟩
    · have hgood' := good_producer hgood (by rwa [hnext])
      rwa [hnext] at hgood'
    · have hgood' := good_consumer hgood (by rwa [hnext])
      rwa [hnext] at hgood'
  leaves := by
    intro l d act l' d' hgood hmove hact
    rcases move_buffer hmove (inside_of_releases hmove hact) with
      ⟨p, item, rfl, hnext⟩ | ⟨p, item, rfl, hnext⟩
    · have hrest := atRest_producer hgood (by rwa [hnext])
      rwa [hnext] at hrest
    · have hrest := atRest_consumer hgood (by rwa [hnext])
      rwa [hnext] at hrest
  outside := by
    intro d d' h
    obtain ⟨kbd, rfl⟩ := outside_buffer h
    exact ⟨id, fun l => good_kbd.mpr⟩

end Rule

section Start

variable {a : Addresses} {kbdBuffer : ℤ → BitVec 8} {buffer : ℤ → BitVec 32}
variable {c : Config Monitor Cond Loc Data}

theorem Booted.places_eq (h : Booted a kbdBuffer buffer c) (m : Monitor) :
    places (fun l => l.inside = some m) c.stack = ∅ := by
  refine Set.eq_empty_of_forall_notMem ?_
  rintro ⟨t, i, l⟩ ⟨f, hf, hpc, hl⟩
  have hmem : f ∈ c.stack t := List.mem_reverse.mp (List.mem_of_getElem? hf)
  rcases h.stack_eq t with hnil | ⟨l₀, hstart, hout⟩
  · rw [hnil] at hmem
    cases hmem
  · rw [hstart, List.mem_singleton] at hmem
    subst hmem
    obtain rfl := Pc.user.inj hpc
    rw [hout] at hl
    cases hl

theorem Booted.monitored (h : Booted a kbdBuffer buffer c) :
    Monitored .buffer (fun l => l.inside = some .buffer) AtRest Good c := by
  refine Monitored.free (by rw [h.mutex]) (h.places_eq .buffer) ?_
  rw [h.data]
  exact atRest_initialData kbdBuffer buffer

end Start

end BabOs.Main
