import BabOs.Main.Exchange
import BabOs.Sync.Signals
import BabOs.Sync.WaitQueues

/-!
# Where the tasks wait

A task waits for its own monitor or its own condition, with the one activation
that is its own: as long as no handler has to wait, a handler is never what
keeps a task from running.
-/

namespace BabOs.Main

open BabOs.Sched BabOs.Sync BabOs.Chain

variable {a : Addresses} {c c' : Config Monitor Cond Loc Data}
variable {x : Label Monitor Cond Loc} {t u : ℕ}

/-! ## Where the tasks wait -/

section Waiting

variable {pc : Pc Monitor Cond Loc} {q : Queue Monitor Cond}
variable {f g : Frame Monitor Cond Loc} {fs : List (Frame Monitor Cond Loc)}

/-- A function waits for its monitor or for its condition. -/
def Role.WaitsOn (ρ : Role) : Queue Monitor Cond → Prop
  | .mutex m => ρ.monitor = some m
  | .cond v => ρ.awaits = some v

theorem Role.awaits_inj {ρ ρ' : Role} {v : Cond} (h : ρ.awaits = some v)
    (h' : ρ'.awaits = some v) : ρ = ρ' := by
  cases ρ <;> cases ρ' <;> cases h <;> first | rfl | cases h'

/-- Only the producer and the consumer enter the monitor of the buffer. -/
theorem monitor_of_inside {l : Loc} (hl : l.inside = some .buffer) :
    l.role.monitor = some .buffer := by
  cases l with
  | producer | consumer => rfl
  | getchar p c => cases p <;> cases hl
  | callback p c => cases p <;> cases hl
  | idle | shell => cases hl

theorem ne_handler_of_inside {l : Loc} (hl : l.inside = some .buffer) :
    l.role ≠ .handler := by
  intro hrole
  have hmonitor := monitor_of_inside hl
  rw [hrole] at hmonitor
  cases hmonitor

theorem waitsOn_of_called (h : Called code.program pc)
    (hq : pc.waitsOn = some q) : pc.loc.role.WaitsOn q := by
  have hlock {m : Monitor} {l : Loc}
      (h : Entry code.program m l) : l.role.monitor = some m := by
    obtain ⟨l₀, d, d', hmove | ⟨v, hmove⟩⟩ := h
    · have hcalls := calls_of_move hmove
      rw [hcalls.role]
      exact (hcalls.lock m rfl).1
    · have hcalls := calls_of_move hmove
      rw [hcalls.role]
      exact (hcalls.wait v m rfl).2.1
  have hwait {v : Cond} {m : Monitor} {l : Loc}
      (h : ∃ l₀ d d', code.program.move l₀ d (.wait v m) l d') :
      l.role.awaits = some v := by
    obtain ⟨l₀, d, d', hmove⟩ := h
    have hcalls := calls_of_move hmove
    rw [hcalls.role]
    exact (hcalls.wait v m rfl).1
  cases pc with
  | lockYield m l | lockRetry m l =>
      cases hq
      exact hlock h
  | waitYield v m l | waitRelock v m l =>
      cases hq
      exact hwait h
  | user | sleepMark | sleepYield => cases hq

/-- The idle task is never inside a function that suspends it. -/
theorem user_of_idle (h : Called code.program pc)
    (hrole : pc.loc.role = .idle) : ∃ l, pc = .user l := by
  cases hq : pc.waitsOn with
  | some q =>
      have hwaits := waitsOn_of_called h hq
      rw [hrole] at hwaits
      cases q <;> cases hwaits
  | none =>
      cases pc with
      | user l => exact ⟨l, rfl⟩
      | sleepMark l | sleepYield l =>
          obtain ⟨l₀, d, d', ms, hmove⟩ := h
          have hcalls := calls_of_move hmove
          have hsleep := hcalls.sleep ms rfl
          rw [← hcalls.role, show l.role = .idle from hrole] at hsleep
          cases hsleep
      | lockYield | lockRetry | waitYield | waitRelock => cases hq

theorem Staffed.eq_of_mem (h : Staffed a c.locs) (hf : f ∈ c.stack t)
    (hg : g ∈ c.stack t) (hfrole : f.pc.loc.role ≠ .handler)
    (hgrole : g.pc.loc.role ≠ .handler) : f = g := by
  obtain ⟨n, hn⟩ := h t
  rw [Config.locs, List.map_map, List.map_eq_append_iff] at hn
  obtain ⟨hs, own, hstack, hhandlers, hown⟩ := hn
  have hmem {f : Frame Monitor Cond Loc} (hf : f ∈ c.stack t)
      (hrole : f.pc.loc.role ≠ .handler) : f ∈ own := by
    rw [hstack, List.mem_append] at hf
    rcases hf with hf | hf
    · have hmap := List.mem_map_of_mem (f := Loc.role ∘ fun f => f.pc.loc) hf
      rw [hhandlers] at hmap
      exact absurd (List.eq_of_mem_replicate hmap) hrole
    · exact hf
  have hf' := hmem hf hfrole
  have hg' := hmem hg hgrole
  cases hρ : a.role t with
  | none =>
      rw [hρ] at hown
      rw [List.map_eq_nil_iff.mp hown] at hf'
      cases hf'
  | some ρ =>
      rw [hρ] at hown
      obtain ⟨y, rfl, -⟩ := List.map_eq_singleton_iff.mp hown
      rw [List.mem_singleton.mp hf', List.mem_singleton.mp hg']

theorem Addresses.exists_role (ht : t ∈ a.tasks) : ∃ ρ, a.role t = some ρ := by
  simp only [Addresses.tasks, List.mem_cons, List.not_mem_nil, or_false] at ht
  rw [Addresses.role]
  split_ifs with hidle hproducer hconsumer hshell
  · exact ⟨_, rfl⟩
  · exact ⟨_, rfl⟩
  · exact ⟨_, rfl⟩
  · exact ⟨_, rfl⟩
  · rcases ht with ht | ht | ht | ht
    · exact absurd ht hidle
    · exact absurd ht hproducer
    · exact absurd ht hconsumer
    · exact absurd ht hshell

theorem Staffed.ne_nil (h : Staffed a c.locs) (ht : t ∈ a.tasks)
    (hf : c.stack t = f :: fs) (hrole : f.pc.loc.role = .handler) :
    fs ≠ [] := by
  rintro rfl
  obtain ⟨ρ, hρ⟩ := Addresses.exists_role ht
  obtain ⟨n, hn⟩ := h t
  rw [Config.locs, hf, hρ, List.map_singleton, List.map_singleton, hrole] at hn
  cases n with
  | zero =>
      obtain ⟨rfl, -⟩ := List.cons.inj hn
      exact a.role_ne_handler t hρ
  | succ n =>
      have hnil := (List.cons.inj hn).2
      exact absurd hnil.symm
        (List.append_ne_nil_of_right_ne_nil _ (List.cons_ne_nil ρ []))

theorem Staffed.role_of_frame (h : Staffed a c.locs) (hf : f ∈ c.stack t)
    (hrole : f.pc.loc.role ≠ .handler) : a.role t = some f.pc.loc.role :=
  h.role_of_mem (List.mem_map_of_mem hf) hrole

end Waiting

/-! ## Handlers that pass -/

/-- No handler is inside a function that suspends its task. -/
def Passing (c : Config Monitor Cond Loc Data) : Prop :=
  ∀ t, ∀ f ∈ c.stack t, f.pc.loc.role = .handler → ∃ l, f.pc = .user l

section Passing

variable {f g : Frame Monitor Cond Loc} {fs : List (Frame Monitor Cond Loc)}
variable {r : ℕ} {q : Queue Monitor Cond} {l : Loc} {d d' : Data}
variable {pc pc' : Pc Monitor Cond Loc}

theorem role_of_pcStep (h : PcStep code.program d d' x pc pc') :
    pc'.loc.role = pc.loc.role := by
  rcases h.loc with ⟨act, hmove⟩ | ⟨heq, -⟩
  · exact (calls_of_move hmove).role
  · rw [heq]

/-- A handler that does not put its task on a queue stays in its own code. -/
theorem user_of_pcStep (h : PcStep code.program d d' x (.user l) pc')
    (hrole : l.role = .handler) (hyields : ¬pc'.Yields) :
    ∃ l', pc' = .user l' := by
  cases h with
  | plain | lock | unlock | relock => exact ⟨_, rfl⟩
  | lockYield | wait | retryYield => exact absurd trivial hyields
  | sleep hmove =>
      have hsleep := (calls_of_move hmove).sleep _ rfl
      rw [hrole] at hsleep
      cases hsleep
  | yield hdata hpc => cases hpc

theorem Passing.step (h : Passing c) (hstaffed : Staffed a c.locs)
    (hlisted : ∀ r, c.k.tasks.runningTask = some r → r ∈ a.tasks)
    (hpass : HandlersPass x c) (hstep : Step code.program codeTimer x c c') :
    Passing c' := by
  intro t y hy hrole
  cases hstep.stackStep with
  | keeps hstack hx hdata => exact h t y (hstack ▸ hy) hrole
  | @moves r f g fs hr hf hstack hpc hyields =>
      have hmem : y = g ∨ y ∈ c.stack t := by
        by_cases ht : t = r
        · subst ht
          rw [hstack, Function.update_self] at hy
          rw [hf]
          exact (List.mem_cons.mp hy).imp_right (List.mem_cons_of_mem _)
        · rw [hstack, Function.update_of_ne ht] at hy
          exact Or.inr hy
      rcases hmem with rfl | hy
      · rw [role_of_pcStep hpc] at hrole
        obtain ⟨l, hl⟩ := h r f (hf ▸ List.mem_cons_self) hrole
        refine user_of_pcStep (hl ▸ hpc) (by rwa [hl] at hrole) fun hy => ?_
        have hdepth := hpass (hyields hy)
        rw [Config.depth, hr] at hdepth
        simp only [hf, List.length_cons, Nat.add_eq_right,
          List.length_eq_zero_iff] at hdepth
        exact hstaffed.ne_nil (hlisted r hr) hf hrole hdepth
      · exact h t y hy hrole
  | enters hx hr hf hirq hstack =>
      rw [hstack, ← hf] at hy
      rcases mem_update hy with hy | hy
      · rcases List.mem_cons.mp hy with rfl | hy
        · exact ⟨_, rfl⟩
        · exact h _ y hy hrole
      · exact h t y hy hrole
  | returns hx hr hf hpc hmove hstack =>
      rw [hstack] at hy
      rcases mem_update hy with hy | hy
      · exact h _ y (hf ▸ List.mem_cons_of_mem _ hy) hrole
      · exact h t y hy hrole

theorem ne_idle_of_suspends (hstaffed : Staffed a c.locs)
    (hcalled : ∀ t, ∀ f ∈ c.stack t, Called code.program f.pc)
    (hpass : HandlersPass x c) (hstep : Step code.program codeTimer x c c')
    (hx : x.Suspends c) : c.k.tasks.runningTask ≠ some a.idle := by
  intro hr
  obtain ⟨r, f, fs, heffect⟩ := hstep.stackEffect
  obtain rfl := Option.some.inj (hr.symm.trans heffect.running)
  have hf := heffect.stack
  have hmem : f ∈ c.stack a.idle := hf ▸ List.mem_cons_self
  have hrole : f.pc.loc.role = .idle := by
    by_cases hhandler : f.pc.loc.role = .handler
    · have hdepth := hpass hx
      rw [Config.depth, hr] at hdepth
      simp only [hf, List.length_cons, Nat.add_eq_right,
        List.length_eq_zero_iff] at hdepth
      exact absurd hdepth (hstaffed.ne_nil List.mem_cons_self hf hhandler)
    · have hown := hstaffed.role_of_frame hmem hhandler
      rw [Addresses.role, if_pos rfl] at hown
      exact (Option.some.inj hown).symm
  obtain ⟨l, hl⟩ := user_of_idle (hcalled _ f hmem) hrole
  have hat := heffect.stands
  rw [hl] at hat hrole
  cases x with
  | call act =>
      obtain ⟨r, g, gs, l₀, l', hr', hg, hpc, hmove, -⟩ := hstep.move
      obtain rfl := Option.some.inj (hr.symm.trans hr')
      obtain ⟨rfl, -⟩ := List.cons.inj (hf.symm.trans hg)
      obtain rfl := Pc.user.inj (hl.symm.trans hpc)
      have hcalls := calls_of_move hmove
      cases act with
      | lock m =>
          have hmonitor := (hcalls.lock m rfl).1
          rw [show l.role = .idle from hrole] at hmonitor
          cases hmonitor
      | wait v m =>
          have hmonitor := (hcalls.wait v m rfl).1
          rw [show l.role = .idle from hrole] at hmonitor
          cases hmonitor
      | skip | unlock | signal | broadcast | sleep | iret => exact hx
  | retry m =>
      obtain ⟨l', hretries⟩ := hat
      cases hretries
  | sleeping =>
      obtain ⟨l', hmark⟩ := hat
      cases hmark
  | yield | timer | irq => exact hx

end Passing

/-! ## Who waits for whom -/

/-- What the scheduler, the monitor and the tasks guarantee. -/
structure Orderly (a : Addresses) (c : Config Monitor Cond Loc Data) :
    Prop where
  staffed : Staffed a c.locs
  called : ∀ t, ∀ f ∈ c.stack t, Called code.program f.pc
  monitored : Monitored .buffer (fun l => l.inside = some .buffer) AtRest Good c
  passing : Passing c
  idles : Idles a.tasks a.idle c

/-- A task waits with the activation that is its own. -/
structure WaitsAt (a : Addresses) (c : Config Monitor Cond Loc Data)
    (q : Queue Monitor Cond) (t : ℕ) (f : Frame Monitor Cond Loc) : Prop where
  mem : f ∈ c.stack t
  waitsOn : f.pc.waitsOn = some q
  role : a.role t = some f.pc.loc.role
  own : f.pc.loc.role.WaitsOn q

section Orderly

variable {Q : Queue Monitor Cond → List ℕ} {q : Queue Monitor Cond}
variable {f g : Frame Monitor Cond Loc} {l : Loc} {v : Cond} {i : ℕ}

theorem Orderly.step (h : Orderly a c) (hpass : HandlersPass x c)
    (hstep : Step code.program codeTimer x c c') : Orderly a c' where
  staffed := h.staffed.step hstep.locStep
  called := hstep.called h.called
  monitored :=
    (hstep.regionStep (guards .buffer) h.called).monitored monitorRule
      h.monitored
  passing := by
    obtain ⟨-, Q, hsound⟩ := h.idles
    exact h.passing.step h.staffed (fun r => hsound.mem_of_running) hpass hstep
  idles :=
    hstep.idles List.mem_cons_self hpass
      (ne_idle_of_suspends h.staffed h.called hpass hstep) h.idles

theorem Orderly.ne_handler (h : Orderly a c) (hf : f ∈ c.stack t)
    (hq : f.pc.waitsOn = some q) : f.pc.loc.role ≠ .handler := by
  intro hrole
  obtain ⟨l, hl⟩ := h.passing t f hf hrole
  rw [hl] at hq
  cases hq

theorem Orderly.exists_waitsAt (h : Orderly a c) (hsound : Sound a.tasks c Q)
    (ht : t ∈ Q q) : ∃ f, WaitsAt a c q t f := by
  obtain ⟨f, hf, hq⟩ := (hsound.stands q t ht).exists_waitsOn
  exact ⟨f, hf, hq, h.staffed.role_of_frame hf (h.ne_handler hf hq),
    waitsOn_of_called (h.called t f hf) hq⟩

theorem Orderly.eq_of_mem_cond (h : Orderly a c) (hsound : Sound a.tasks c Q)
    (ht : t ∈ Q (.cond v)) (hu : u ∈ Q (.cond v)) : t = u := by
  obtain ⟨f, hf⟩ := h.exists_waitsAt hsound ht
  obtain ⟨g, hg⟩ := h.exists_waitsAt hsound hu
  have hrole : f.pc.loc.role = g.pc.loc.role :=
    Role.awaits_inj hf.own hg.own
  exact a.role_inj hf.role (hrole ▸ hg.role)

theorem Orderly.not_waitsAt (h : Orderly a c) (hf : WaitsAt a c q t f)
    (hplace : (t, i, l) ∈ places (fun l => l.inside = some .buffer) c.stack) :
    False := by
  obtain ⟨g, hg, hpc, hl⟩ := hplace
  have hmem : g ∈ c.stack t := List.mem_reverse.mp (List.mem_of_getElem? hg)
  have hrole : g.pc.loc.role ≠ .handler := by
    rw [hpc]
    exact ne_handler_of_inside hl
  obtain rfl := h.staffed.eq_of_mem hf.mem hmem
    (h.ne_handler hf.mem hf.waitsOn) hrole
  have hnone := hf.waitsOn
  rw [hpc] at hnone
  cases hnone

end Orderly

end BabOs.Main
