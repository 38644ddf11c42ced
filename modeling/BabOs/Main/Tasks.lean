import BabOs.Main.Boot

/-!
# Who runs what

Each task runs its own function, with activations of the keyboard handler on
top.  So there is one producer, and it numbers its items one after the other.
-/

namespace BabOs.Main

open BabOs.Sched BabOs.Sync

/-! ## The functions -/

/-- The functions of the tasks, and the handler that interrupts them. -/
inductive Role
  | idle
  | producer
  | consumer
  | shell
  | handler
  deriving DecidableEq

/-- The function that a location belongs to. -/
def Loc.role : Loc → Role
  | .idle => .idle
  | .producer _ _ => .producer
  | .consumer _ _ => .consumer
  | .shell _ | .getchar _ _ => .shell
  | .callback _ _ => .handler

def Role.monitor : Role → Option Monitor
  | .idle => none
  | .producer | .consumer => some .buffer
  | .shell | .handler => some .kbd

/-- The condition that a function waits for. -/
def Role.awaits : Role → Option Cond
  | .idle | .handler => none
  | .producer => some (.buffer, 1)
  | .consumer => some (.buffer, 0)
  | .shell => some (.kbd, 0)

/-- The code looks at `count`. -/
def Loc.AtTest : Loc → Prop
  | .producer .test _ | .consumer .test _ => True
  | .getchar .test _ | .callback .test _ => True
  | _ => False

/-- The code at `l` makes a call that its function makes, and goes on with this
function at `l'`. -/
structure Calls (l l' : Loc) (act : Act Monitor Cond) : Prop where
  role : l'.role = l.role
  lock : ∀ m, act = .lock m → l.role.monitor = some m ∧ l'.AtTest
  wait : ∀ v m, act = .wait v m →
    l.role.awaits = some v ∧ l.role.monitor = some m ∧ l'.AtTest
  sleep : ∀ ms, act = .sleep ms → l.role.monitor = some .buffer
  iret : act = .iret → l.role = .handler

section Code

variable {l l' : Loc} {d d' : Data} {act : Act Monitor Cond}

/-- A call that neither enters a monitor nor suspends the task. -/
theorem Calls.of_quiet (hrole : l'.role = l.role)
    (hact : act.Plain ∨ ∃ m, act = .unlock m) : Calls l l' act := by
  cases act with
  | skip | unlock | signal | broadcast =>
      refine ⟨hrole, ?_, ?_, ?_, ?_⟩ <;> intros <;> contradiction
  | lock | wait | sleep | iret =>
      rcases hact with hact | ⟨m, hact⟩
      · exact absurd hact id
      · cases hact

theorem Calls.of_lock {m : Monitor} (hrole : l'.role = l.role)
    (hmonitor : l.role.monitor = some m) (htest : l'.AtTest) :
    Calls l l' (.lock m) where
  role := hrole
  lock m' h := by
    cases h
    exact ⟨hmonitor, htest⟩
  wait v m' h := by cases h
  sleep ms h := by cases h
  iret h := by cases h

theorem Calls.of_wait {v : Cond} {m : Monitor} (hrole : l'.role = l.role)
    (hawaits : l.role.awaits = some v) (hmonitor : l.role.monitor = some m)
    (htest : l'.AtTest) : Calls l l' (.wait v m) where
  role := hrole
  lock m' h := by cases h
  wait v' m' h := by
    cases h
    exact ⟨hawaits, hmonitor, htest⟩
  sleep ms h := by cases h
  iret h := by cases h

theorem Calls.of_sleep {ms : ℕ} (hrole : l'.role = l.role)
    (hmonitor : l.role.monitor = some .buffer) : Calls l l' (.sleep ms) where
  role := hrole
  lock m' h := by cases h
  wait v' m' h := by cases h
  sleep ms h := hmonitor
  iret h := by cases h

theorem Calls.of_iret (hrole : l'.role = l.role) (hhandler : l.role = .handler) :
    Calls l l' .iret where
  role := hrole
  lock m' h := by cases h
  wait v' m' h := by cases h
  sleep ms h := by cases h
  iret h := hhandler

theorem calls_producer (item : BitVec 32) (d : Data) (p : ProducerLoc) :
    Calls (.producer p item) (producer item d p).2.1 (producer item d p).1 := by
  cases p with
  | test =>
      rw [producer]
      split_ifs <;> exact .of_quiet rfl (Or.inl trivial)
  | sleep => exact .of_sleep rfl rfl
  | enter => exact .of_lock rfl rfl trivial
  | wait => exact .of_wait rfl rfl rfl trivial
  | exit => exact .of_quiet rfl (Or.inr ⟨_, rfl⟩)
  | printFull | store | moveTail | increment | print | notify =>
      exact .of_quiet rfl (Or.inl trivial)

theorem calls_consumer (item : BitVec 32) (d : Data) (p : ConsumerLoc) :
    Calls (.consumer p item) (consumer item d p).2.1 (consumer item d p).1 := by
  cases p with
  | test =>
      rw [consumer]
      split_ifs <;> exact .of_quiet rfl (Or.inl trivial)
  | sleep => exact .of_sleep rfl rfl
  | enter => exact .of_lock rfl rfl trivial
  | wait => exact .of_wait rfl rfl rfl trivial
  | exit => exact .of_quiet rfl (Or.inr ⟨_, rfl⟩)
  | printEmpty | read | moveHead | decrement | print | notify =>
      exact .of_quiet rfl (Or.inl trivial)

theorem calls_getchar (c : BitVec 8) (d : Data) (p : GetcharLoc) :
    Calls (.getchar p c) (getchar c d p).2.1 (getchar c d p).1 := by
  cases p with
  | test =>
      rw [getchar]
      split_ifs <;> exact .of_quiet rfl (Or.inl trivial)
  | enter => exact .of_lock rfl rfl trivial
  | wait => exact .of_wait rfl rfl rfl trivial
  | exit => exact .of_quiet rfl (Or.inr ⟨_, rfl⟩)
  | read | moveHead | decrement => exact .of_quiet rfl (Or.inl trivial)

theorem calls_callback (c : BitVec 8) (d : Data) (p : CallbackLoc) :
    Calls (.callback p c) (callback c d p).2.1 (callback c d p).1 := by
  cases p with
  | test =>
      rw [callback]
      split_ifs <;> exact .of_quiet rfl (Or.inl trivial)
  | enter => exact .of_lock rfl rfl trivial
  | iret => exact .of_iret rfl rfl
  | exit => exact .of_quiet rfl (Or.inr ⟨_, rfl⟩)
  | store | moveTail | increment | notify | putchar =>
      exact .of_quiet rfl (Or.inl trivial)

theorem calls_of_move (h : code.program.move l d act l' d') :
    Calls l l' act :=
  move_rule (p := fun l x => Calls l x.2.1 x.1) h
    (.of_quiet rfl (Or.inl trivial))
    (fun q item => calls_producer item d q)
    (fun q item => calls_consumer item d q)
    (fun _ => .of_quiet rfl (Or.inl trivial))
    (fun q c => calls_getchar c d q) fun q c => calls_callback c d q

theorem role_of_irq (h : code.program.irq d d' (some l)) :
    l.role = .handler := by
  obtain ⟨scancode, hirq⟩ := h
  obtain ⟨c, -, rfl⟩ := Option.map_eq_some_iff.mp (congrArg Prod.snd hirq)
  rfl

end Code

/-! ## The tasks -/

/-- The function of a task. -/
def Addresses.role (a : Addresses) (t : ℕ) : Option Role :=
  if t = a.idle then some .idle
  else if t = a.producer then some .producer
  else if t = a.consumer then some .consumer
  else if t = a.shell then some .shell
  else none

/-- Each task runs its own function, under activations of the handler. -/
def Staffed (a : Addresses) (S : ℕ → List Loc) : Prop :=
  ∀ t, ∃ n, (S t).map Loc.role =
    List.replicate n .handler ++ (a.role t).toList

section Roles

variable {a : Addresses} {S S' : ℕ → List Loc} {d d' : Data} {t u : ℕ}
variable {l : Loc} {ls : List Loc} {c : Config Monitor Cond Loc Data}

theorem Addresses.role_ne_handler (a : Addresses) (t : ℕ) :
    a.role t ≠ some .handler := by
  rw [Addresses.role]
  split_ifs <;> nofun

theorem Addresses.role_inj {ρ : Role} (ht : a.role t = some ρ)
    (hu : a.role u = some ρ) : t = u := by
  rw [Addresses.role] at ht hu
  split_ifs at ht hu with h h' <;> cases ht <;> cases hu <;>
    exact Eq.trans ‹t = _› (Eq.symm ‹u = _›)

theorem Addresses.role_producer (a : Addresses) :
    a.role a.producer = some .producer := by
  have hnodup := a.nodup
  simp only [List.nodup_cons, List.mem_cons, not_or] at hnodup
  rw [Addresses.role, if_neg (Ne.symm hnodup.1.1), if_pos rfl]

theorem Addresses.role_consumer (a : Addresses) :
    a.role a.consumer = some .consumer := by
  have hnodup := a.nodup
  simp only [List.nodup_cons, List.mem_cons, not_or] at hnodup
  rw [Addresses.role, if_neg (Ne.symm hnodup.1.2.1),
    if_neg (Ne.symm hnodup.2.1.1), if_pos rfl]

theorem Addresses.role_shell (a : Addresses) :
    a.role a.shell = some .shell := by
  have hnodup := a.nodup
  simp only [List.nodup_cons, List.mem_cons, not_or] at hnodup
  rw [Addresses.role, if_neg (Ne.symm hnodup.1.2.2.1),
    if_neg (Ne.symm hnodup.2.1.2.1), if_neg (Ne.symm hnodup.2.2.1.1),
    if_pos rfl]

/-- An activation that is not the handler's belongs to the task's function. -/
theorem Staffed.role_of_mem (h : Staffed a S) (hl : l ∈ S t)
    (hrole : l.role ≠ .handler) : a.role t = some l.role := by
  obtain ⟨n, hn⟩ := h t
  have hmem := List.mem_map_of_mem (f := Loc.role) hl
  rw [hn, List.mem_append, Option.mem_toList] at hmem
  rcases hmem with hmem | hmem
  · exact absurd (List.eq_of_mem_replicate hmem) hrole
  · exact hmem

theorem Staffed.eq_nil (h : Staffed a S) (hl : S t = l :: ls)
    (hrole : l.role ≠ .handler) : ls = [] := by
  have hmine := h.role_of_mem (hl ▸ List.mem_cons_self) hrole
  obtain ⟨n, hn⟩ := h t
  rw [hl, hmine, List.map_cons] at hn
  cases n with
  | zero => exact List.map_eq_nil_iff.mp (List.cons.inj hn).2
  | succ n => exact absurd (List.cons.inj hn).1 hrole

theorem Staffed.step (h : Staffed a S)
    (hstep : LocStep code.program S S' d d') : Staffed a S' := by
  intro x
  obtain ⟨n, hn⟩ := h x
  cases hstep with
  | stays hlocs hdata => exact ⟨n, by rw [hlocs, hn]⟩
  | interrupts hlocs hirq => exact ⟨n, by rw [hlocs, hn]⟩
  | @moves t l l' ls act hl hlocs hmove =>
      refine ⟨n, ?_⟩
      rw [hlocs, ← hn]
      by_cases hx : x = t
      · subst hx
        rw [Function.update_self, hl, List.map_cons, List.map_cons,
          (calls_of_move hmove).role]
      · rw [Function.update_of_ne hx]
  | @enters t l hlocs hirq =>
      rw [hlocs]
      by_cases hx : x = t
      · subst hx
        refine ⟨n + 1, ?_⟩
        rw [Function.update_self, List.map_cons, hn, role_of_irq hirq]
        rfl
      · exact ⟨n, by rw [Function.update_of_ne hx, hn]⟩
  | @returns t l l' ls hl hlocs hmove =>
      have hrole := (calls_of_move hmove).iret rfl
      rw [hlocs]
      by_cases hx : x = t
      · subst hx
        rw [hl, List.map_cons, hrole] at hn
        rw [Function.update_self]
        cases n with
        | zero =>
            have hmine : Role.handler ∈ (a.role x).toList := by
              rw [List.replicate_zero, List.nil_append] at hn
              rw [← hn]
              exact List.mem_cons_self
            exact absurd (Option.mem_toList.mp hmine) (a.role_ne_handler x)
        | succ n => exact ⟨n, (List.cons.inj hn).2⟩
      · exact ⟨n, by rw [Function.update_of_ne hx, hn]⟩

theorem Booted.staffed {kbdBuffer : ℤ → BitVec 8} {buffer : ℤ → BitVec 32}
    (h : Booted a kbdBuffer buffer c) : Staffed a c.locs := by
  intro t
  refine ⟨0, ?_⟩
  rw [Config.locs, h.stack, Addresses.stack, Addresses.role]
  split_ifs <;> rfl

end Roles

/-! ## The items -/

/-- The items that are produced, one after the other. -/
def nthItem (n : ℕ) : BitVec 32 := BitVec.ofNat 32 (100 + n)

/-- The producer's next item, at any of its locations. -/
def Next (d : Data) : Loc → Prop
  | .producer _ x => x = nthItem d.produced.length
  | _ => True

/-- The items are 100, 101, 102 and so on. -/
def Numbered (S : ℕ → List Loc) (d : Data) : Prop :=
  d.produced = (List.range d.produced.length).map nthItem ∧
    ∀ t, ∀ l ∈ S t, Next d l

section Items

variable {a : Addresses} {S S' : ℕ → List Loc} {d d' : Data}
variable {l l' : Loc} {act : Act Monitor Cond}

/-- Only the producer produces, and it goes on with the next item. -/
theorem produced_of_move (h : code.program.move l d act l' d') :
    d'.produced = d.produced ∧ (Next d l → Next d l') ∨
      ∃ x, l = .producer .store x ∧ l' = .producer .moveTail (x + 1) ∧
        d'.produced = d.produced ++ [x] := by
  refine move_rule (p := fun l x => x.2.2.produced = d.produced ∧
    (Next d l → Next d x.2.1) ∨ ∃ i, l = .producer .store i ∧
      x.2.1 = .producer .moveTail (i + 1) ∧
      x.2.2.produced = d.produced ++ [i]) h ?_ ?_ ?_ ?_ ?_ ?_
  · exact Or.inl ⟨rfl, id⟩
  · intro q x
    cases q with
    | store => exact Or.inr ⟨x, rfl, rfl, rfl⟩
    | test =>
        left
        rw [producer]
        split_ifs <;> exact ⟨rfl, id⟩
    | sleep | enter | printFull | wait | moveTail | increment | print | notify
    | exit => exact Or.inl ⟨rfl, id⟩
  · intro q x
    left
    cases q with
    | test =>
        rw [consumer]
        split_ifs <;> exact ⟨rfl, id⟩
    | sleep | enter | printEmpty | wait | read | moveHead | decrement | print
    | notify | exit => exact ⟨rfl, id⟩
  · exact fun c => Or.inl ⟨rfl, id⟩
  · intro q c
    left
    cases q with
    | test =>
        rw [getchar]
        split_ifs <;> exact ⟨rfl, id⟩
    | enter | wait | read | moveHead | decrement | exit => exact ⟨rfl, id⟩
  · intro q c
    left
    cases q with
    | test =>
        rw [callback]
        split_ifs <;> exact ⟨rfl, id⟩
    | enter | store | moveTail | increment | notify | exit | putchar | iret =>
        exact ⟨rfl, id⟩

theorem next_congr (h : d'.produced = d.produced) : Next d' l ↔ Next d l := by
  cases l with
  | producer p x => rw [Next, Next, h]
  | idle | consumer | shell | getchar | callback => exact Iff.rfl

theorem next_of_role (h : l.role ≠ .producer) : Next d l := by
  cases l with
  | producer p x => exact absurd rfl h
  | idle | consumer | shell | getchar | callback => trivial

theorem produced_of_irq {h : Option Loc} (hirq : code.program.irq d d' h) :
    d'.produced = d.produced := by
  obtain ⟨scancode, hirq⟩ := hirq
  have hdata := congrArg (fun x => x.1.produced) hirq
  exact hdata.symm

theorem nthItem_succ (n : ℕ) : nthItem n + 1 = nthItem (n + 1) := by
  rw [nthItem, nthItem, ← add_assoc, BitVec.ofNat_add (100 + n)]
  rfl

theorem Numbered.of_eq (h : Numbered S d) (hproduced : d'.produced = d.produced)
    (hnext : ∀ t, ∀ l ∈ S' t, Next d l) : Numbered S' d' := by
  refine ⟨?_, fun t l hl => (next_congr hproduced).mpr (hnext t l hl)⟩
  rw [hproduced]
  exact h.1

theorem Numbered.step (h : Numbered S d) (hstaffed : Staffed a S)
    (hstep : LocStep code.program S S' d d') : Numbered S' d' := by
  cases hstep with
  | stays hlocs hdata =>
      rw [hlocs, hdata]
      exact h
  | interrupts hlocs hirq =>
      rw [hlocs]
      exact h.of_eq (produced_of_irq hirq) h.2
  | @moves t l l' ls act hl hlocs hmove =>
      have hmem {u : ℕ} {x : Loc} (hx : x ∈ S' u) :
          u = t ∧ (x = l' ∨ x ∈ ls) ∨ u ≠ t ∧ x ∈ S u := by
        rw [hlocs] at hx
        by_cases hu : u = t
        · subst hu
          rw [Function.update_self] at hx
          exact Or.inl ⟨rfl, List.mem_cons.mp hx⟩
        · rw [Function.update_of_ne hu] at hx
          exact Or.inr ⟨hu, hx⟩
      rcases produced_of_move hmove with
        ⟨hproduced, hnext⟩ | ⟨x, rfl, rfl, hproduced⟩
      · refine h.of_eq hproduced fun u x hx => ?_
        rcases hmem hx with ⟨rfl, rfl | hx⟩ | ⟨-, hx⟩
        · exact hnext (h.2 u l (hl ▸ List.mem_cons_self))
        · exact h.2 u x (hl ▸ List.mem_cons_of_mem _ hx)
        · exact h.2 u x hx
      · -- the producer is the only one that knows the next item
        have hitem := h.2 t _ (hl ▸ List.mem_cons_self)
        have hlength : d'.produced.length = d.produced.length + 1 := by
          rw [hproduced, List.length_append, List.length_singleton]
        have hproducer : a.role t = some .producer :=
          hstaffed.role_of_mem (l := .producer .store x)
            (hl ▸ List.mem_cons_self) nofun
        refine ⟨?_, fun u y hy => ?_⟩
        · rw [hlength, List.range_succ, List.map_append, ← h.1, hproduced,
            List.map_singleton, ← hitem]
        · rcases hmem hy with ⟨-, rfl | hy⟩ | ⟨hne, hy⟩
          · rw [Next, hlength, ← nthItem_succ, ← hitem]
          · rw [hstaffed.eq_nil hl nofun] at hy
            cases hy
          · refine next_of_role fun hrole => hne ?_
            have hmine := hstaffed.role_of_mem hy (by rw [hrole]; nofun)
            rw [hrole] at hmine
            exact a.role_inj hmine hproducer
  | @enters t l hlocs hirq =>
      refine h.of_eq (produced_of_irq hirq) fun u x hx => ?_
      rw [hlocs] at hx
      by_cases hu : u = t
      · subst hu
        rw [Function.update_self] at hx
        rcases List.mem_cons.mp hx with rfl | hx
        · apply next_of_role
          rw [role_of_irq hirq]
          nofun
        · exact h.2 u x hx
      · rw [Function.update_of_ne hu] at hx
        exact h.2 u x hx
  | @returns t l l' ls hl hlocs hmove =>
      have hrole := (calls_of_move hmove).iret rfl
      rcases produced_of_move hmove with ⟨hproduced, -⟩ | ⟨x, rfl, -⟩
      · refine h.of_eq hproduced fun u x hx => ?_
        rw [hlocs] at hx
        by_cases hu : u = t
        · subst hu
          rw [Function.update_self] at hx
          exact h.2 u x (hl ▸ List.mem_cons_of_mem _ hx)
        · rw [Function.update_of_ne hu] at hx
          exact h.2 u x hx
      · cases hrole

theorem Booted.numbered {kbdBuffer : ℤ → BitVec 8} {buffer : ℤ → BitVec 32}
    {c : Config Monitor Cond Loc Data} (h : Booted a kbdBuffer buffer c) :
    Numbered c.locs c.data := by
  rw [h.data]
  refine ⟨rfl, fun t l hl => ?_⟩
  rw [Config.locs, h.stack, Addresses.stack] at hl
  split_ifs at hl
  · cases List.mem_singleton.mp hl
    trivial
  · cases List.mem_singleton.mp hl
    rfl
  · cases List.mem_singleton.mp hl
    trivial
  · cases List.mem_singleton.mp hl
    trivial
  · cases hl

/-- In a run the tasks keep to their functions and number the items. -/
theorem run_numbered {c₀ c : Config Monitor Cond Loc Data}
    {timer : ℕ → Tasks → ℕ → Tasks → Prop}
    {ok : Label Monitor Cond Loc → Config Monitor Cond Loc Data → Prop}
    (hrun : Run code.program timer ok c₀ c) (hstaffed : Staffed a c₀.locs)
    (hnumbered : Numbered c₀.locs c₀.data) :
    Staffed a c.locs ∧ Numbered c.locs c.data :=
  hrun.invariant (I := fun c => Staffed a c.locs ∧ Numbered c.locs c.data)
    ⟨hstaffed, hnumbered⟩ fun _ hstep h =>
      ⟨h.1.step hstep.locStep, h.2.step h.1 hstep.locStep⟩

end Items

end BabOs.Main
