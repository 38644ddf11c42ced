import BabOs.Vmm.Mapping

/-!
# The boot page tables

This module embeds steps 1 to 5 of `kernel_entry.asm`: a directory and two
tables, one after the other in memory, that map the first eight mebibytes to
themselves and to the higher half.
-/

namespace BabOs.Boot

open BabOs.Vmm

def kernelVirtualBase : ℕ := 0xC0000000

def pdeIndex : ℕ := kernelVirtualBase >>> 22

/-- `ecx` rounds of `stosd`, each followed by `add eax, step`: `eax` and the
memory afterwards.  A step of zero is `rep stosd`. -/
def stosdLoop (step : ℕ) : (ecx edi eax : ℕ) → Memory → ℕ × Memory
  | 0, _, eax, m => (eax, m)
  | ecx + 1, edi, eax, m =>
      stosdLoop step ecx (edi + 4) (uint32 (eax + step)) (m.store32 edi eax)

/-- Steps 1 to 3: the directory is zeroed and the two tables, which follow it,
are filled. -/
def fillTables (directory : ℕ) (m : Memory) : Memory :=
  let m := (stosdLoop 0 1024 directory 0 m).2
  let r := stosdLoop 4096 1024 (directory + 4096) (0x000 ||| 0x003) m
  (stosdLoop 4096 1024 (directory + 8192) r.1 r.2).2

/-- Step 4: four entries of the directory. -/
def fillDirectory (directory : ℕ) (m : Memory) : Memory :=
  let eax := (directory + 4096) ||| 0x003
  let m := m.store32 directory eax
  let m := m.store32 (directory + pdeIndex * 4) eax
  let eax := (directory + 8192) ||| 0x003
  let m := m.store32 (directory + 4) eax
  m.store32 (directory + (pdeIndex + 1) * 4) eax

/-- The state after step 5, which puts the directory into `cr3`; `directory` is
the physical address of `boot_page_directory`. -/
def enterPaging {σ : Type*} (directory : ℕ) (s : State σ) : State σ :=
  { s with
    mem := fillDirectory directory (fillTables directory s.mem)
    currentDirectory := directory }

/-! ## The loop -/

section Loop

variable {step n edi eax a j : ℕ} {m : Memory}

theorem stosdLoop_eax (h : eax + n * step < 2 ^ 32) :
    (stosdLoop step n edi eax m).1 = eax + n * step := by
  induction n generalizing edi eax m with
  | zero => simp [stosdLoop]
  | succ n ih =>
      rw [Nat.succ_mul] at h ⊢
      rw [stosdLoop, uint32_eq_of_lt (by omega), ih (by omega)]
      omega

theorem load32_stosdLoop_of_disjoint (h : a + 4 ≤ edi ∨ edi + 4 * n ≤ a) :
    (stosdLoop step n edi eax m).2.load32 a = m.load32 a := by
  induction n generalizing edi eax m with
  | zero => rfl
  | succ n ih =>
      rw [stosdLoop, ih (by omega)]
      exact Memory.load32_store32_of_disjoint (by omega)

/-- Each word that the loop stored is still there at the end. -/
theorem load32_stosdLoop (h : eax + n * step < 2 ^ 32) (hj : j < n) :
    (stosdLoop step n edi eax m).2.load32 (edi + 4 * j) = eax + j * step := by
  induction n generalizing edi eax m j with
  | zero => omega
  | succ n ih =>
      rw [Nat.succ_mul] at h
      rw [stosdLoop, uint32_eq_of_lt (by omega)]
      cases j with
      | zero =>
          rw [load32_stosdLoop_of_disjoint (by omega), Nat.mul_zero,
            Nat.add_zero, Nat.zero_mul, Nat.add_zero, Memory.load32_store32]
          exact uint32_eq_of_lt (by omega)
      | succ j =>
          have haddr : edi + 4 * (j + 1) = edi + 4 + 4 * j := by omega
          rw [haddr, ih (by omega) (by omega), Nat.succ_mul]
          omega

end Loop

/-! ## The tables -/

section Tables

variable {σ : Type*} {directory i j v : ℕ} {m : Memory} {s : State σ}

theorem pdeIndex_eq : pdeIndex = 768 := by
  decide

theorem load32_fillTables_directory (hi : i < 1024) :
    (fillTables directory m).load32 (directory + 4 * i) = 0 := by
  rw [fillTables, load32_stosdLoop_of_disjoint (by omega),
    load32_stosdLoop_of_disjoint (by omega),
    load32_stosdLoop (by norm_num) hi, Nat.mul_zero]

theorem load32_fillTables_table (hj : j < 1024) :
    (fillTables directory m).load32 (directory + 4096 + 4 * j) =
      j * 4096 + 3 := by
  rw [fillTables, load32_stosdLoop_of_disjoint (by omega),
    load32_stosdLoop (by norm_num) hj]
  exact Nat.add_comm _ _

theorem load32_fillTables_table2 (hj : j < 1024) :
    (fillTables directory m).load32 (directory + 8192 + 4 * j) =
      (1024 + j) * 4096 + 3 := by
  have heax : (0x000 ||| 0x003) + 1024 * 4096 < 2 ^ 32 := by norm_num
  rw [fillTables, stosdLoop_eax heax, load32_stosdLoop (by norm_num) hj]
  norm_num
  omega

theorem load32_fillDirectory_of_ne {a : ℕ}
    (h : ∀ i, i = 0 ∨ i = 1 ∨ i = 768 ∨ i = 769 →
      directory + 4 * i + 4 ≤ a ∨ a + 4 ≤ directory + 4 * i) :
    (fillDirectory directory m).load32 a = m.load32 a := by
  have h₀ := h 0 (by norm_num)
  have h₁ := h 1 (by norm_num)
  have h₂ := h 768 (by norm_num)
  have h₃ := h 769 (by norm_num)
  rw [fillDirectory, pdeIndex_eq,
    Memory.load32_store32_of_disjoint (by omega),
    Memory.load32_store32_of_disjoint (by omega),
    Memory.load32_store32_of_disjoint (by omega),
    Memory.load32_store32_of_disjoint (by omega)]

theorem load32_fillDirectory_table (hi : i = 0 ∨ i = 768) :
    (fillDirectory directory m).load32 (directory + 4 * i) =
      uint32 ((directory + 4096) ||| 0x003) := by
  rw [fillDirectory, pdeIndex_eq]
  rcases hi with rfl | rfl
  · have haddr : directory + 4 * 0 = directory := by omega
    rw [haddr, Memory.load32_store32_of_disjoint (by omega),
      Memory.load32_store32_of_disjoint (by omega),
      Memory.load32_store32_of_disjoint (by omega), Memory.load32_store32]
  · rw [Memory.load32_store32_of_disjoint (by omega),
      Memory.load32_store32_of_disjoint (by omega), Nat.mul_comm 768,
      Memory.load32_store32]

theorem load32_fillDirectory_table2 (hi : i = 1 ∨ i = 769) :
    (fillDirectory directory m).load32 (directory + 4 * i) =
      uint32 ((directory + 8192) ||| 0x003) := by
  rw [fillDirectory, pdeIndex_eq]
  rcases hi with rfl | rfl
  · rw [Memory.load32_store32_of_disjoint (by omega), Nat.mul_one,
      Memory.load32_store32]
  · have haddr : directory + 4 * 769 = directory + (768 + 1) * 4 := by omega
    rw [haddr, Memory.load32_store32]

section Aligned

variable (hdvd : pageSize ∣ directory) (hlt : directory + 0x3000 ≤ 2 ^ 32)

include hdvd hlt

theorem uint32_table_or {t : ℕ} (ht : t = directory + 4096 ∨ t = directory + 8192) :
    uint32 (t ||| 0x003) = t + 3 := by
  have haligned : pageSize ∣ t := by
    rw [pageSize] at hdvd ⊢
    omega
  rw [page_or haligned (by norm_num)]
  exact uint32_eq_of_lt (by omega)

theorem slot_enterPaging (hi : i < 1024) :
    slot (enterPaging directory s) i =
      if i = 0 ∨ i = 768 then directory + 4096 + 3
      else if i = 1 ∨ i = 769 then directory + 8192 + 3
      else 0 := by
  change (fillDirectory directory (fillTables directory s.mem)).load32
    (directory + 4 * i) = _
  split_ifs with htable htable2
  · rw [load32_fillDirectory_table htable]
    exact uint32_table_or hdvd hlt (Or.inl rfl)
  · rw [load32_fillDirectory_table2 htable2]
    exact uint32_table_or hdvd hlt (Or.inr rfl)
  · rw [load32_fillDirectory_of_ne, load32_fillTables_directory hi]
    rintro k (rfl | rfl | rfl | rfl) <;> omega

theorem entry_enterPaging (hi : i < 1024) (hj : j < 1024) :
    entry (enterPaging directory s) i j =
      if i = 0 ∨ i = 768 then j * 4096 + 3
      else if i = 1 ∨ i = 769 then (1024 + j) * 4096 + 3
      else 0 := by
  have hslot := slot_enterPaging (s := s) hdvd hlt hi
  have hout : ∀ a, directory + 4096 ≤ a →
      (enterPaging directory s).mem.load32 a =
        (fillTables directory s.mem).load32 a := by
    intro a ha
    refine load32_fillDirectory_of_ne ?_
    rintro k (rfl | rfl | rfl | rfl) <;> omega
  rw [pageSize] at hdvd
  split_ifs with htable htable2
  · rw [if_pos htable] at hslot
    have hpresent : Present (enterPaging directory s) i := by
      rw [Present, hslot, pagePresent, Nat.and_one_is_mod]
      omega
    rw [entry, if_pos hpresent, tableOf, hslot, and_high (by omega)]
    have haddr : (directory + 4096 + 3) / 4096 * 4096 = directory + 4096 := by
      omega
    rw [haddr, hout _ (by omega), load32_fillTables_table hj]
  · rw [if_neg htable, if_pos htable2] at hslot
    have hpresent : Present (enterPaging directory s) i := by
      rw [Present, hslot, pagePresent, Nat.and_one_is_mod]
      omega
    rw [entry, if_pos hpresent, tableOf, hslot, and_high (by omega)]
    have haddr : (directory + 8192 + 3) / 4096 * 4096 = directory + 8192 := by
      omega
    rw [haddr, hout _ (by omega), load32_fillTables_table2 hj]
  · rw [if_neg htable, if_neg htable2] at hslot
    have habsent : ¬Present (enterPaging directory s) i := by
      rw [Present, hslot, Nat.zero_and]
      exact fun hne => hne rfl
    rw [entry, if_neg habsent]

/-- The boot tables map the first eight mebibytes to themselves and to the
higher half, and nothing else. -/
theorem walk_enterPaging (hv : v < 2 ^ 32) :
    walk (enterPaging directory s) v =
      if v < 0x800000 then some (v, 3)
      else if kernelVirtualBase ≤ v ∧ v < kernelVirtualBase + 0x800000 then
        some (v - kernelVirtualBase, 3)
      else none := by
  have hentry := entry_enterPaging (s := s) hdvd hlt (pdIndex_lt hv)
    (ptIndex_lt v)
  have hindex : pdIndex v = v / 0x400000 := by
    rw [pdIndex, Nat.shiftRight_eq_div_pow]
  have hdecode : ∀ p w, p < 2 ^ 20 → p * 4096 + v % 4096 = w →
      decode v (p * 4096 + 3) = some (w, 3) := by
    rintro p w hp rfl
    have hpte : pte (p * 4096) 3 = p * 4096 + 3 := by
      rw [pte_eq (by omega) (by norm_num), Nat.mul_div_cancel p (by norm_num)]
    rw [← hpte, decode_pte (by omega) (by norm_num) (by decide),
      and_high (by omega), and_low, Nat.mul_div_cancel p (by norm_num)]
  rw [walk_eq_decode, hentry, hindex, ptIndex_eq, kernelVirtualBase]
  split_ifs
  · exact hdecode _ _ (by omega) (by omega)
  · exact hdecode _ _ (by omega) (by omega)
  · omega
  · exact hdecode _ _ (by omega) (by omega)
  · exact hdecode _ _ (by omega) (by omega)
  · omega
  · omega
  · omega
  · rfl

end Aligned

end Tables

end BabOs.Boot
