import BabOs.Terminal.Expansion
import BabOs.Terminal.Lines
import BabOs.Terminal.Safety

/-!
# What `printf` shows

The terminal's `printf` takes its format as a list, and the one of the format
pointer reads it from memory.  Where the pointer stays inside the format, the
terminal draws what the other one sends, so that the screen shows the texts that
the formats stand for.
-/

namespace BabOs.Terminal.Printf

/-- The argument of the terminal's `printf` for a value. -/
def Value.toArg : Value → Arg
  | .string text => .string (text.map UInt8.toBitVec)
  | .number v => .word v

section Terminal

variable {font : Font} {t : Terminal.State} {v : Value} {values : List Value}
variable {text format : List UInt8}

theorem numeral_toBitVec (base n : ℕ) :
    (if n = 0 then [48]
      else ((Nat.digits base n).map fun d =>
        BitVec.ofNat 8 (if d < 10 then d + 48 else d - 10 + 97)).reverse) =
      (numeral base n).map UInt8.toBitVec := by
  rw [numeral]
  split_ifs
  · rfl
  · rw [List.map_reverse, List.map_map]
    rfl

theorem terminalItoa_eq (value : BitVec 32) {base : ℕ} (hlo : 2 ≤ base)
    (hhi : base ≤ 36) :
    Terminal.itoa value base =
      (Common.itoaText value base).map UInt8.toBitVec := by
  have hbase : ¬(base < 2 ∨ 36 < base) := by omega
  have hten : (base : ℤ) = 10 ↔ base = 10 := by omega
  rw [Terminal.itoa, if_neg hbase, Common.itoaText, Common.magnitude,
    List.map_append, Int.toNat_natCast]
  by_cases hsigned : value.toInt < 0 ∧ base = 10
  · have hsigned' : Common.Signed value base := ⟨hsigned.1, hten.mpr hsigned.2⟩
    rw [if_pos hsigned', if_pos hsigned']
    simp only [if_pos hsigned]
    rw [numeral_toBitVec]
    rfl
  · have hsigned' : ¬Common.Signed value base := fun h =>
      hsigned ⟨h.1, hten.mp h.2⟩
    rw [if_neg hsigned', if_neg hsigned']
    simp only [if_neg hsigned]
    rw [numeral_toBitVec]
    rfl

theorem terminalWritestring_text (hnul : 0 ∉ text) :
    terminalWritestring font (text.map UInt8.toBitVec) t =
      (text.map UInt8.toBitVec).foldl (terminalPutchar font) t := by
  rw [terminalWritestring_eq, stringText, List.takeWhile_eq_self_iff.mpr]
  intro x hx
  obtain ⟨c, hc, rfl⟩ := List.mem_map.mp hx
  apply decide_eq_true
  intro hzero
  obtain rfl : c = 0 := UInt8.toBitVec_inj.mp hzero
  exact hnul hc

theorem terminalPrintf_other {d : BitVec 8} {args : List Arg}
    {format : List (BitVec 8)} (hd0 : d ≠ 0)
    (hd : d ∉ [0x73, 0x64, 0x78, 0x63]) :
    Terminal.printf font (0x25 :: d :: format) args t =
      Terminal.printf font format args
        (if d = 0x25 then terminalPutchar font t 0x25 else t) := by
  rw [Terminal.printf.eq_def]
  dsimp only
  rw [if_neg (by decide), if_pos rfl]
  split
  · contradiction
  · rename_i heq
    cases heq
    exact absurd hd (by decide)
  · rename_i heq
    cases heq
    exact absurd hd (by decide)
  · rename_i heq
    cases heq
    exact absurd hd (by decide)
  · rename_i heq
    cases heq
    exact absurd hd (by decide)
  · rename_i heq
    cases heq
    rw [if_pos (show 0x25#8 = 0x25 from rfl)]
  · rename_i hpercent heq _ _ _ _
    cases heq
    rw [if_neg (show d ≠ 0x25 from hpercent),
      if_neg (not_or.mpr ⟨hd0, hd⟩)]

theorem terminalPrintf_char {args : List Arg} {format : List (BitVec 8)}
    (c : BitVec 32) :
    Terminal.printf font (0x25 :: 0x63 :: format) (.word c :: args) t =
      Terminal.printf font format args
        (terminalPutchar font t (c.setWidth 8)) :=
  rfl

theorem terminalPrintf_hex {args : List Arg} {format : List (BitVec 8)}
    (x : BitVec 32) :
    Terminal.printf font (0x25 :: 0x78 :: format) (.word x :: args) t =
      Terminal.printf font format args
        (terminalWritestring font (Terminal.itoa x 16)
          (terminalWritestring font [0x30, 0x78] t)) :=
  rfl

theorem zero_notMem_signedNumeral (v : ℤ) : 0 ∉ signedNumeral v := by
  rw [signedNumeral, List.mem_append, not_or]
  constructor
  · split_ifs <;> decide
  · exact zero_notMem_numeral (by norm_num) (by norm_num)

theorem terminalPrintf_conversion {d : UInt8} {first : List UInt8}
    {args : List Arg} {format : List (BitVec 8)}
    (hstring : ∀ s, v = .string s → 0 ∉ s)
    (hfirst : conversion d v = some first) :
    Terminal.printf font (0x25 :: d.toBitVec :: format) (v.toArg :: args) t =
      Terminal.printf font format args
        ((first.map UInt8.toBitVec).foldl (terminalPutchar font) t) := by
  cases v with
  | string s =>
      rw [conversion] at hfirst
      split_ifs at hfirst with hd
      obtain rfl := Option.some.inj hfirst
      subst hd
      rw [← terminalWritestring_text (hstring s rfl)]
      rfl
  | number w =>
      rw [conversion] at hfirst
      split_ifs at hfirst with hd hx hc
      · obtain rfl := Option.some.inj hfirst
        subst hd
        have hitoa : Terminal.itoa w 10 = _ :=
          terminalItoa_eq w (by norm_num) (by norm_num)
        rw [← terminalWritestring_text (zero_notMem_signedNumeral _),
          ← itoaText_ten]
        exact congrArg (fun s => Terminal.printf font _ _
          (terminalWritestring font s t)) hitoa
      · obtain rfl := Option.some.inj hfirst
        subst hx
        have hitoa : Terminal.itoa w 16 =
            (Common.itoaText w 16).map UInt8.toBitVec :=
          terminalItoa_eq w (by norm_num) (by norm_num)
        have hzerox : terminalWritestring font
            (([0x30, 0x78] : List UInt8).map UInt8.toBitVec) t = _ :=
          terminalWritestring_text (by decide)
        rw [List.map_append, List.foldl_append,
          ← terminalWritestring_text
            (zero_notMem_numeral (by norm_num) (by norm_num)),
          ← hzerox, ← itoaText_sixteen, ← hitoa]
        exact terminalPrintf_hex w
      · obtain rfl := Option.some.inj hfirst
        subst hc
        rw [List.map_singleton, List.foldl_cons, List.foldl_nil,
          UInt8.toBitVec_ofBitVec]
        exact terminalPrintf_char w

/-- Where the format does not end in a dangling `%`, the terminal's `printf`
for lists sends the expansion, too. -/
theorem terminalPrintf_expand (hformat : 0 ∉ format)
    (hstrings : ∀ s, .string s ∈ values → 0 ∉ s)
    (htext : expand format values = some text) (hdangling : ¬Dangling format) :
    Terminal.printf font (format.map UInt8.toBitVec)
        (values.map Value.toArg) t =
      some ((text.map UInt8.toBitVec).foldl (terminalPutchar font) t) := by
  induction format using format_induction generalizing t values text with
  | nil =>
      obtain rfl : [] = text := Option.some.inj htext
      rfl
  | percent => exact absurd dangling_percent hdangling
  | conversion d format ih =>
      rw [dangling_conversion] at hdangling
      have hrest : 0 ∉ format := fun hmem =>
        hformat (List.mem_cons_of_mem _ (List.mem_cons_of_mem d hmem))
      by_cases htakes : TakesValue d
      · cases values with
        | nil =>
            rw [expand_conversion_nil htakes] at htext
            cases htext
        | cons v values =>
            rw [expand_conversion htakes, Option.bind_eq_some_iff] at htext
            obtain ⟨first, hfirst, htext⟩ := htext
            obtain ⟨later, hlater, rfl⟩ := Option.map_eq_some_iff.mp htext
            rw [List.map_append, List.foldl_append,
              ← ih hrest (fun s hs => hstrings s (List.mem_cons_of_mem v hs))
                hlater hdangling]
            refine terminalPrintf_conversion (fun s hs => ?_) hfirst
            exact hstrings s (hs ▸ List.mem_cons_self)
      · rw [expand_other htakes] at htext
        obtain ⟨later, hlater, rfl⟩ := Option.map_eq_some_iff.mp htext
        have hd0 : d.toBitVec ≠ 0 := fun hzero =>
          hformat (List.mem_cons_of_mem _ (List.mem_cons.mpr
            (Or.inl (UInt8.toBitVec_inj.mp hzero).symm)))
        have hd : d.toBitVec ∉ [0x73, 0x64, 0x78, 0x63] := by
          intro hmem
          apply htakes
          simpa [TakesValue, ← UInt8.toBitVec_inj] using hmem
        have hd25 : d.toBitVec = 0x25 ↔ d = 0x25 := UInt8.toBitVec_inj
        rw [List.map_append, List.foldl_append,
          ← ih hrest hstrings hlater hdangling, List.map_cons, List.map_cons]
        refine (terminalPrintf_other hd0 hd).trans ?_
        congr 1
        by_cases heq : d = 0x25
        · have hpercent : (0x25 : UInt8).toBitVec = 0x25 := rfl
          rw [if_pos heq, if_pos (hd25.mpr heq), List.map_singleton,
            List.foldl_cons, List.foldl_nil, hpercent]
        · rw [if_neg heq, if_neg (heq ∘ hd25.mp), List.map_nil,
            List.foldl_nil]
  | byte c format hc ih =>
      rw [dangling_byte hc] at hdangling
      obtain ⟨text, htail, rfl⟩ :=
        Option.map_eq_some_iff.mp ((expand_byte hc).symm.trans htext)
      have hc0 : c.toBitVec ≠ 0 := fun hzero =>
        hformat (List.mem_cons.mpr (Or.inl (UInt8.toBitVec_inj.mp hzero).symm))
      have hcp : c.toBitVec ≠ 0x25 := fun heq => hc (UInt8.toBitVec_inj.mp heq)
      have hrest : 0 ∉ format := fun hmem =>
        hformat (List.mem_cons_of_mem c hmem)
      rw [List.map_cons, Terminal.printf.eq_def]
      simp only [if_neg hc0, if_neg hcp]
      exact ih hrest hstrings htail hdangling

end Terminal

/-! ## Calls -/

/-- The call of `printf` with this format and these values. -/
def output (format : List UInt8) (values : List Value) : Output :=
  .printf (format.map UInt8.toBitVec) (values.map Value.toArg)

/-- The format stands for the text, and no `%` dangles at its end. -/
structure Writes (format : List UInt8) (values : List Value)
    (text : List (Fin 128)) : Prop where
  nul : 0 ∉ format
  strings : ∀ s, .string s ∈ values → 0 ∉ s
  expands : expand format values = some (text.map fun c => UInt8.ofNat c.val)
  complete : ¬Dangling format

section Calls

variable {font : Font} {t : Terminal.State} {format : List UInt8}
variable {values : List Value} {text : List (Fin 128)}
variable {calls : List (List UInt8 × List Value)}
variable {texts : List (List (Fin 128))}

theorem Writes.call (h : Writes format values text) :
    (output format values).call font t = some (putText font text t) := by
  refine (terminalPrintf_expand h.nul h.strings h.expands h.complete).trans ?_
  rw [List.map_map, List.foldl_map]
  rfl

end Calls

end BabOs.Terminal.Printf
