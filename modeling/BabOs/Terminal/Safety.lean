import BabOs.Terminal.Bounds

/-!
# The text that may be written

A run of calls of the text functions touches nothing but the table of the font
and the framebuffer if and only if all bytes of its text are below `128`.
-/

namespace BabOs.Terminal

open Memory

/-- A call that writes text. -/
inductive Output where
  | write (data : List (BitVec 8))
  | writestring (data : List (BitVec 8))
  | printf (format : List (BitVec 8)) (args : List Arg)

def Output.call (font : Font) (t : State) : Output → Option State
  | .write data => some (terminalWrite font data t)
  | .writestring data => some (terminalWritestring font data t)
  | .printf format args => Terminal.printf font format args t

/-- The calls, one after the other. -/
def run (font : Font) (t : State) (outputs : List Output) : Option State :=
  outputs.foldlM (Output.call font) t

/-! ## Text -/

def stringText (data : List (BitVec 8)) : List (BitVec 8) :=
  data.takeWhile (· ≠ 0)

def printfText : (format : List (BitVec 8)) → List Arg → List (BitVec 8)
  | [], _ => []
  | c :: format, args =>
      if c = 0 then []
      else if c = 0x25 then
        match format, args with
        | [], _ => []
        | 0x73 :: format, .string s :: args =>
            stringText s ++ printfText format args
        | 0x64 :: format, .word d :: args =>
            stringText (itoa d 10) ++ printfText format args
        | 0x78 :: format, .word x :: args =>
            stringText [0x30, 0x78] ++ stringText (itoa x 16) ++
              printfText format args
        | 0x63 :: format, .word c :: args =>
            c.setWidth 8 :: printfText format args
        | 0x25 :: format, args => 0x25 :: printfText format args
        | _ :: format, args => printfText format args
      else c :: printfText format args

def Output.text : Output → List (BitVec 8)
  | .write data => data
  | .writestring data => stringText data
  | .printf format args => printfText format args

section Text

variable {font : Font} {t t' : State}

theorem terminalWritestring_eq (font : Font) (data : List (BitVec 8))
    (t : State) :
    terminalWritestring font data t =
      (stringText data).foldl (terminalPutchar font) t := by
  induction data generalizing t with
  | nil => rfl
  | cons c data ih =>
      rw [terminalWritestring, stringText, List.takeWhile_cons]
      by_cases hc : c = 0
      · rw [if_pos hc, if_neg (by simp [hc]), List.foldl_nil]
      · rw [if_neg hc, if_pos (by simpa using hc), List.foldl_cons, ih,
          stringText]

theorem printf_eq {format : List (BitVec 8)} {args : List Arg}
    (h : printf font format args t = some t') :
    t' = (printfText format args).foldl (terminalPutchar font) t := by
  fun_induction printf font format args t <;> rw [printfText.eq_def] <;>
    simp_all [terminalWritestring_eq]

theorem Output.call_eq {o : Output} (h : o.call font t = some t') :
    t' = o.text.foldl (terminalPutchar font) t := by
  cases o with
  | write data => exact (Option.some.inj h).symm
  | writestring data =>
      rw [Output.text, ← terminalWritestring_eq]
      exact (Option.some.inj h).symm
  | printf format args => exact printf_eq h

end Text

/-! ## Runs -/

section Runs

variable {font : Font} {t t' : State} {vbe : VbeModeInfo} {mem : Memory}

theorem text_emits (hplaced : Placed t) (text : List (BitVec 8)) :
    Emits (∀ c ∈ text, c.toNat < 128) t
        (text.foldl (terminalPutchar font) t) ∧
      Placed (text.foldl (terminalPutchar font) t) := by
  apply emits_foldl (I := Placed)
  · intro c hc t hplaced
    exact terminalPutchar_emits hplaced
  · exact hplaced

theorem run_emits {outputs : List Output} (hplaced : Placed t)
    (hrun : run font t outputs = some t') :
    Emits (∀ o ∈ outputs, ∀ c ∈ o.text, c.toNat < 128) t t' := by
  induction outputs generalizing t with
  | nil =>
      obtain rfl : t = t' := Option.some.inj hrun
      exact (Emits.refl t).congr (by simp)
  | cons o outputs ih =>
      rw [run, List.foldlM_cons] at hrun
      obtain ⟨t₁, hcall, hrest⟩ := Option.bind_eq_some_iff.mp hrun
      obtain ⟨hfirst, hplaced₁⟩ := @text_emits font t hplaced o.text
      rw [← Output.call_eq hcall] at hfirst hplaced₁
      apply (hfirst.trans (ih hplaced₁ hrest)).congr
      rw [List.forall_mem_cons]

/-- What has been touched since the memory was `mem` lies in the table of the
font or in the framebuffer. -/
structure Safe (mem : Memory) (t : State) : Prop where
  stores : WritesOutside t.vbe.rangeᶜ mem t.mem
  loads : ∀ x ∈ t.loads, x.Inside t.vbe

theorem run_terminalInitialize (hgeometry : Geometry vbe)
    {outputs : List Output}
    (hrun : run font (terminalInitialize vbe mem) outputs = some t) :
    t.vbe = vbe ∧ WritesOutside vbe.rangeᶜ mem t.mem ∧
      ((∀ x ∈ t.loads, x.Inside vbe) ↔
        ∀ o ∈ outputs, ∀ c ∈ o.text, c.toNat < 128) := by
  obtain ⟨hclear, hplaced⟩ := terminalInitialize_emits hgeometry mem
  obtain ⟨hvbe, hstores, l, hloads, hiff⟩ := run_emits hplaced hrun
  have hloads₀ : (terminalInitialize vbe mem).loads = [] := rfl
  rw [hloads₀, List.nil_append] at hloads
  rw [hloads]
  exact ⟨hvbe, hclear.trans hstores, hiff⟩

end Runs

/-- The terminal touches nothing but the table of the font and the framebuffer
if and only if all bytes of the text are below `128`. -/
theorem run_safe_iff {vbe : VbeModeInfo} (hgeometry : Geometry vbe)
    (font : Font) (mem : Memory) (outputs : List Output) {t : State}
    (hrun : run font (terminalInitialize vbe mem) outputs = some t) :
    Safe mem t ↔ ∀ o ∈ outputs, ∀ c ∈ o.text, c.toNat < 128 := by
  obtain ⟨hvbe, hstores, hiff⟩ := run_terminalInitialize hgeometry hrun
  rw [← hiff]
  constructor
  · intro hsafe
    have hloads := hsafe.loads
    rwa [hvbe] at hloads
  · intro hloads
    constructor
    · rwa [hvbe]
    · rwa [hvbe]

/-- What `cat` does with the contents of a file. -/
def cat (contents : List (BitVec 8)) : Output :=
  .printf [0x25, 0x73, 0x0A] [.string contents]

/-- The shell prints a file of one letter. -/
theorem run_safe_iff_letter :
    ∃ font mem t,
      run font (terminalInitialize xga mem) [cat [0x41, 0]] = some t ∧
        Safe mem t := by
  let font : Font := ⟨fun _ _ => 0, fun _ _ => 0⟩
  let mem : Memory := ⟨fun _ => 0, []⟩
  refine ⟨font, mem, _, rfl, ?_⟩
  exact (run_safe_iff geometry_xga font mem [cat [0x41, 0]] rfl).mpr (by decide)

/-- A file with a byte from `128` on makes the terminal read before the table of
the font. -/
theorem not_safe_highByte :
    ∃ font mem t,
      run font (terminalInitialize xga mem) [cat [0xE9, 0]] = some t ∧
        ¬Safe mem t := by
  let font : Font := ⟨fun _ _ => 0, fun _ _ => 0⟩
  let mem : Memory := ⟨fun _ => 0, []⟩
  obtain ⟨t, hrun⟩ : ∃ t,
      run font (terminalInitialize xga mem) [cat [0xE9, 0]] = some t :=
    ⟨_, rfl⟩
  refine ⟨font, mem, t, hrun, ?_⟩
  intro hsafe
  obtain ⟨hvbe, -, hiff⟩ := run_terminalInitialize geometry_xga hrun
  have hloads := hsafe.loads
  rw [hvbe] at hloads
  exact absurd (hiff.mp hloads) (by decide)

end BabOs.Terminal
