import BabOs.Library.Strings

/-!
# Memories and their logs

What a program does to memory with stores, it does where its log says.
-/

namespace BabOs

namespace Memory

/-- `m'` is `m` after the stores of a log, and has the bytes of `m` elsewhere. -/
def Logs (m m' : Memory) : Prop :=
  ∃ l, m'.stores = l ++ m.stores ∧
    ∀ a, (∀ x ∈ l, a ∉ Set.Ico x.1 (x.1 + x.2)) → m'.byte a = m.byte a

section Logs

variable {S : Set ℕ} {m m' m'' : Memory} {a v : ℕ}

theorem Logs.refl (m : Memory) : Logs m m :=
  ⟨[], rfl, fun _ _ => rfl⟩

theorem Logs.trans (h : Logs m m') (h' : Logs m' m'') : Logs m m'' := by
  obtain ⟨l, hl, hbyte⟩ := h
  obtain ⟨l', hl', hbyte'⟩ := h'
  refine ⟨l' ++ l, by rw [hl', hl, List.append_assoc], fun a ha => ?_⟩
  rw [hbyte' a fun x hx => ha x (List.mem_append_left _ hx)]
  exact hbyte a fun x hx => ha x (List.mem_append_right _ hx)

theorem Logs.store8 (h : Logs m m') : Logs m (m'.store8 a v) := by
  refine h.trans ⟨[(a, 1)], rfl, fun b hb => ?_⟩
  have hout := hb _ List.mem_cons_self
  apply byte_store8_of_ne
  rintro rfl
  exact hout ⟨le_rfl, Nat.lt_succ_self _⟩

theorem Logs.store32 (h : Logs m m') : Logs m (m'.store32 a v) := by
  refine h.trans ⟨[(a, 4)], rfl, fun b hb => ?_⟩
  have hout := hb _ List.mem_cons_self
  rw [Set.mem_Ico] at hout
  apply byte_store32_of_disjoint
  omega

/-- Where no store of the log falls, the bytes stay. -/
theorem Logs.sameOn (h : Logs m m') (hwrites : WritesOutside S m m') :
    SameOn S m m' := by
  obtain ⟨l, hl, hbyte⟩ := h
  obtain ⟨l', hl', hout⟩ := hwrites
  obtain rfl := List.append_cancel_right (hl.symm.trans hl')
  intro a ha
  exact hbyte a fun x hx hin => Set.disjoint_left.mp (hout x hx) hin ha

end Logs

end Memory

end BabOs
