import BabOs.Keyboard.Model

/-!
# What the keys mean

The character of a key follows from the scancodes that came before it: which
shift keys are held, and how often caps lock was pressed.  `keyboard_callback`
keeps three flags instead, and compares characters.
-/

namespace BabOs.Keyboard

/-! ## The meaning of the scancodes -/

/-- Is the key held after the scancodes, the last one first? -/
def held (key : BitVec 8) : (codes : List (BitVec 8)) → Bool
  | [] => false
  | b :: codes =>
      if b = key then true
      else if b = key ||| 0x80 then false
      else held key codes

def shiftHeld (codes : List (BitVec 8)) : Bool :=
  held 0x2A codes || held 0x36 codes

/-- Was caps lock pressed an odd number of times? -/
def capsOn (codes : List (BitVec 8)) : Bool :=
  codes.count 0x3A % 2 = 1

def IsLower (c : BitVec 8) : Prop := 97 ≤ c.toInt ∧ c.toInt ≤ 122

def IsUpper (c : BitVec 8) : Prop := 65 ≤ c.toInt ∧ c.toInt ≤ 90

instance (c : BitVec 8) : Decidable (IsLower c) :=
  inferInstanceAs (Decidable (_ ∧ _))

instance (c : BitVec 8) : Decidable (IsUpper c) :=
  inferInstanceAs (Decidable (_ ∧ _))

def upper (c : BitVec 8) : BitVec 8 := c - 0x20

/-- Is it the make code of a key other than the shift keys and caps lock? -/
def IsKey (b : BitVec 8) : Prop :=
  b.toNat < 128 ∧ b ≠ 0x2A ∧ b ≠ 0x36 ∧ b ≠ 0x3A

instance (b : BitVec 8) : Decidable (IsKey b) :=
  inferInstanceAs (Decidable (_ ∧ _))

/-- The character that the scancode `b` yields after the scancodes `codes`, the
last one first. -/
def translate (codes : List (BitVec 8)) (b : BitVec 8) : Option (BitVec 8) :=
  if IsKey b then
    if IsLower (kbdUs b) then
      if shiftHeld codes = capsOn codes then some (kbdUs b)
      else some (upper (kbdUs b))
    else
      let entry := if shiftHeld codes then kbdUsShift b else kbdUs b
      if entry = 0 then none else some entry
  else none

/-! ## The flags -/

/-- The flags are those that the scancodes have left. -/
structure Flags (codes : List (BitVec 8)) (v : Vars) : Prop where
  left : v.leftShiftPressed = held 0x2A codes
  right : v.rightShiftPressed = held 0x36 codes
  caps : v.capsLock = capsOn codes

/-- The variables of the buffer. -/
def Vars.queue (v : Vars) : (ℤ → BitVec 8) × ℤ × ℤ × ℤ :=
  (v.buffer, v.head, v.tail, v.count)

section Translation

variable {codes : List (BitVec 8)} {b c : BitVec 8} {v : Vars}

theorem Flags.shift (h : Flags codes v) :
    (v.leftShiftPressed || v.rightShiftPressed) = shiftHeld codes := by
  rw [h.left, h.right, shiftHeld]

/-- The entries for a key stand side by side, or both tables have ended. -/
theorem mem_entries (b : BitVec 8) :
    (kbdUs b, kbdUsShift b) ∈ (0, 0) :: usEntries.zip usShiftEntries := by
  have hlength : usShiftEntries.length = usEntries.length := rfl
  rw [kbdUs, kbdUsShift]
  rcases Nat.lt_or_ge b.toNat usEntries.length with hlt | hge
  · have hlt' := hlt.trans_eq hlength.symm
    apply List.mem_cons_of_mem
    rw [List.getD_eq_getElem _ _ hlt, List.getD_eq_getElem _ _ hlt',
      ← List.getElem_zip (h := by rw [List.length_zip]; omega)]
    exact List.getElem_mem _
  · rw [List.getD_eq_default _ _ hge,
      List.getD_eq_default _ _ (hlength.trans_le hge)]
    exact List.mem_cons_self

/-- What is checked for the listed entries holds for every key. -/
theorem entry_of_all {p : BitVec 8 × BitVec 8 → Prop} [DecidablePred p]
    (h : ((0, 0) :: usEntries.zip usShiftEntries).all (fun e => p e) = true)
    (b : BitVec 8) : p (kbdUs b, kbdUsShift b) :=
  of_decide_eq_true (List.all_eq_true.mp h _ (mem_entries b))

/-- A letter has its upper case in the other table, and no other key has a
letter in either. -/
theorem key_cases (b : BitVec 8) :
    (IsLower (kbdUs b) ∧ kbdUsShift b = upper (kbdUs b)) ∨
      ¬IsLower (kbdUs b) ∧ ¬IsUpper (kbdUs b) ∧ ¬IsLower (kbdUsShift b) ∧
        ¬IsUpper (kbdUsShift b) := by
  apply entry_of_all (p := fun e => (IsLower e.1 ∧ e.2 = upper e.1) ∨
    ¬IsLower e.1 ∧ ¬IsUpper e.1 ∧ ¬IsLower e.2 ∧ ¬IsUpper e.2)
  decide

theorem entry_nonneg (b : BitVec 8) :
    0 ≤ (kbdUs b).toInt ∧ 0 ≤ (kbdUsShift b).toInt := by
  apply entry_of_all (p := fun e => 0 ≤ e.1.toInt ∧ 0 ≤ e.2.toInt)
  decide

theorem not_isLower_of_isUpper (h : IsUpper c) : ¬IsLower c := by
  rw [IsUpper] at h
  rw [IsLower]
  omega

theorem isUpper_upper (h : IsLower c) : IsUpper (upper c) := by
  revert c
  decide

/-- The tests of the flags and of the character pick a letter's case, or the
table for any other key. -/
theorem keyChar_eq (h : Flags codes v) :
    keyChar b v =
      if IsLower (kbdUs b) then
        if shiftHeld codes = capsOn codes then kbdUs b else upper (kbdUs b)
      else if shiftHeld codes then kbdUsShift b else kbdUs b := by
  simp only [keyChar, h.shift, h.caps, ← IsLower.eq_1, ← IsUpper.eq_1]
  rcases key_cases b with ⟨hlower, hshift⟩ | ⟨hlower, hupper, hlower', hupper'⟩
  · have hupper := isUpper_upper hlower
    have hnot := not_isLower_of_isUpper hupper
    rw [hshift, if_pos hlower]
    cases shiftHeld codes <;> cases capsOn codes <;>
      simp [hlower, hupper, hnot]
  · rw [if_neg hlower]
    cases shiftHeld codes <;> simp [hlower, hupper, hlower', hupper']

/-- The character is the one that the scancode yields, and `0` if it yields
none. -/
theorem translate_eq (h : Flags codes v) (hb : IsKey b) :
    translate codes b =
      if 0 < (keyChar b v).toInt then some (keyChar b v) else none := by
  have hpos {c : BitVec 8} (hc : 0 ≤ c.toInt) : 0 < c.toInt ↔ c ≠ 0 := by
    rw [hc.lt_iff_ne', ne_eq, ne_eq, ← BitVec.toInt_inj]
    rfl
  rw [translate, if_pos hb, keyChar_eq h]
  by_cases hlower : IsLower (kbdUs b)
  · have hupper := isUpper_upper hlower
    have hlower0 : 0 < (kbdUs b).toInt := lt_of_lt_of_le (by decide) hlower.1
    have hupper0 : 0 < (upper (kbdUs b)).toInt :=
      lt_of_lt_of_le (by decide) hupper.1
    rw [if_pos hlower, if_pos hlower]
    split_ifs <;> rfl
  · have hentry : 0 ≤ (if shiftHeld codes then kbdUsShift b
        else kbdUs b).toInt := by
      split_ifs
      · exact (entry_nonneg b).2
      · exact (entry_nonneg b).1
    rw [if_neg hlower, if_neg hlower]
    simp only [hpos hentry, ite_not]

/-- A key other than the shift keys and caps lock leaves the flags alone. -/
theorem Flags.key (h : Flags codes v) (hb : IsKey b) : Flags (b :: codes) v := by
  obtain ⟨hmake, hleft, hright, hcaps⟩ := hb
  have hleft' : b ≠ 0x2A ||| 0x80 := by
    rintro rfl
    exact absurd hmake (by decide)
  have hright' : b ≠ 0x36 ||| 0x80 := by
    rintro rfl
    exact absurd hmake (by decide)
  refine ⟨?_, ?_, ?_⟩
  · rw [held, if_neg hleft, if_neg hleft', h.left]
  · rw [held, if_neg hright, if_neg hright', h.right]
  · rw [h.caps, capsOn, capsOn, List.count_cons_of_ne hcaps]

theorem released_left_iff (hb : b &&& 0x80 ≠ 0) :
    b &&& 0x7F = 0x2A ↔ b = 0x2A ||| 0x80 := by
  revert b
  decide

theorem released_right_iff (hb : b &&& 0x80 ≠ 0) :
    b &&& 0x7F = 0x36 ↔ b = 0x36 ||| 0x80 := by
  revert b
  decide

theorem Flags.released (h : Flags codes v) (hb : b &&& 0x80 ≠ 0) :
    Flags (b :: codes) (release (b &&& 0x7F) v) := by
  obtain ⟨hleft, hright, hcaps⟩ : b ≠ 0x2A ∧ b ≠ 0x36 ∧ b ≠ 0x3A := by
    refine ⟨?_, ?_, ?_⟩ <;> rintro rfl <;> exact absurd hb (by decide)
  refine ⟨?_, ?_, ?_⟩
  · rw [held, if_neg hleft, ← h.left]
    simp only [← released_left_iff hb, release]
    split_ifs <;> rfl
  · rw [held, if_neg hright, ← h.right]
    simp only [← released_right_iff hb, release]
    split_ifs <;> rfl
  · rw [capsOn, List.count_cons_of_ne hcaps, ← capsOn, ← h.caps, release]
    split_ifs <;> rfl

theorem Flags.leftShift (h : Flags codes v) :
    Flags (0x2A :: codes) { v with leftShiftPressed := true } :=
  ⟨rfl, h.right, h.caps⟩

theorem Flags.rightShift (h : Flags codes v) :
    Flags (0x36 :: codes) { v with rightShiftPressed := true } :=
  ⟨h.left, rfl, h.caps⟩

theorem Flags.capsLock (h : Flags codes v) :
    Flags (0x3A :: codes) { v with capsLock := !v.capsLock } := by
  refine ⟨h.left, h.right, ?_⟩
  change (!v.capsLock) = _
  rw [h.caps, capsOn, capsOn, List.count_cons_self]
  rcases Nat.mod_two_eq_zero_or_one (codes.count 0x3A) with heven | hodd
  · have hnext : (codes.count 0x3A + 1) % 2 = 1 := by omega
    rw [heven, hnext]
    rfl
  · have hnext : (codes.count 0x3A + 1) % 2 = 0 := by omega
    rw [hodd, hnext]
    rfl

theorem not_isKey_of_break (hbreak : b &&& 0x80 ≠ 0) : ¬IsKey b := by
  revert b
  decide

theorem isKey_iff (h2A : b ≠ 0x2A) (h36 : b ≠ 0x36) (h3A : b ≠ 0x3A) :
    IsKey b ↔ b &&& 0x80 = 0 := by
  revert b
  decide

theorem queue_release (b : BitVec 8) (v : Vars) :
    (release b v).queue = v.queue := by
  rw [release]
  split_ifs <;> rfl

/-- A scancode does not touch the buffer before the monitor is entered. -/
theorem queue_decode (b : BitVec 8) (v : Vars) :
    (decode b v).1.queue = v.queue := by
  rw [decode]
  split_ifs
  · exact queue_release _ v
  · rfl
  · rfl
  · rfl
  · dsimp only
    split_ifs <;> rfl

/-- The character is the one that the scancode yields; the flags are kept up to
date, and the buffer is left alone. -/
theorem decode_spec (h : Flags codes v) (b : BitVec 8) :
    ∃ v', decode b v = (v', translate codes b) ∧ Flags (b :: codes) v' ∧
      v'.queue = v.queue := by
  have hnokey : ¬IsKey b → translate codes b = none := fun hb => if_neg hb
  rw [decode]
  split_ifs with hbreak h2A h36 h3A
  · rw [hnokey (not_isKey_of_break hbreak)]
    exact ⟨_, rfl, h.released hbreak, queue_release _ v⟩
  · subst h2A
    rw [hnokey (by decide)]
    exact ⟨_, rfl, h.leftShift, rfl⟩
  · subst h36
    rw [hnokey (by decide)]
    exact ⟨_, rfl, h.rightShift, rfl⟩
  · subst h3A
    rw [hnokey (by decide)]
    exact ⟨_, rfl, h.capsLock, rfl⟩
  · have hkey : IsKey b := (isKey_iff h2A h36 h3A).mpr (not_not.mp hbreak)
    rw [translate_eq h hkey]
    refine ⟨v, ?_, h.key hkey, rfl⟩
    dsimp only
    split_ifs <;> rfl

end Translation

end BabOs.Keyboard
