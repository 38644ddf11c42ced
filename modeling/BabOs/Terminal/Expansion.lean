import BabOs.Terminal.Printf
import BabOs.Terminal.Formats

/-!
# What `printf` reads and sends

`printf` sends the text that its format stands for and stays inside the format
if and only if the format does not end in a `%` that nothing follows.
-/

namespace BabOs.Terminal.Printf

open Memory

/-! ## Arguments -/

/-- An argument passes a value: a number itself, and a string by a pointer to
where it lies, apart from the buffers. -/
def Value.PassedBy (frame : Frame) (m : Memory) (w : BitVec 32) : Value → Prop
  | .string text =>
      (Str.ptr w.toNat).Reads m text ∧
        Disjoint frame.buffers
          (Set.Ico w.toNat (w.toNat + (text.length + 1)))
  | .number v => w = v

/-- The arguments from `n` on pass the values. -/
def Frame.Passes (frame : Frame) (m : Memory) : (n : ℕ) → List Value → Prop
  | _, [] => True
  | n, v :: values =>
      v.PassedBy frame m (frame.arg n) ∧ frame.Passes m (n + 1) values

/-- More rounds than any string among the values has bytes, and enough for a
numeral. -/
def Enough (fuel : ℕ) (values : List Value) : Prop :=
  32 < fuel ∧ ∀ text, .string text ∈ values → text.length < fuel

section Arguments

variable {frame : Frame} {m m' : Memory} {fuel n a : ℕ} {p : State}
variable {text : List UInt8} {v : Value} {values : List Value}

theorem Enough.tail (h : Enough fuel (v :: values)) : Enough fuel values :=
  ⟨h.1, fun text htext => h.2 text (List.mem_cons_of_mem v htext)⟩

theorem reads_of_writesWithin (hreads : (Str.ptr a).Reads m text)
    (hapart : Disjoint frame.buffers (Set.Ico a (a + (text.length + 1))))
    (hwrites : WritesWithin frame.buffers m m') :
    (Str.ptr a).Reads m' text :=
  hreads.congr hwrites.same (Set.subset_compl_iff_disjoint_left.mpr hapart)

theorem Frame.Passes.congr (h : frame.Passes m n values)
    (hwrites : WritesWithin frame.buffers m m') :
    frame.Passes m' n values := by
  induction values generalizing n with
  | nil => trivial
  | cons v values ih =>
      refine ⟨?_, ih h.2⟩
      cases v with
      | string text => exact ⟨reads_of_writesWithin h.1.1 h.1.2 hwrites, h.1.2⟩
      | number v => exact h.1

theorem writestring_reads (h : (Str.ptr a).Reads m text)
    (hfuel : text.length < fuel) : writestring m fuel a = some text := by
  induction fuel generalizing a text with
  | zero => exact absurd hfuel (Nat.not_lt_zero _)
  | succ fuel ih =>
      rw [writestring]
      cases text with
      | nil => rw [if_pos (reads_nil h)]
      | cons c text =>
          obtain ⟨hc, hc0, htext⟩ := reads_cons h
          rw [hc, if_neg hc0, ih htext (Nat.lt_of_succ_lt_succ hfuel),
            Option.map_some]

theorem itoaText_ten (v : BitVec 32) :
    Common.itoaText v 10 = signedNumeral v.toInt := by
  have hlt := v.isLt
  have hneg := BitVec.toNat_neg v
  have hint := BitVec.toInt_eq_toNat_cond v
  have hsigned : Common.Signed v 10 ↔ v.toInt < 0 := and_iff_left rfl
  rw [Common.itoaText, Common.magnitude, signedNumeral]
  by_cases hv : v.toInt < 0
  · have habs : (-v).toNat = v.toInt.natAbs := by
      split_ifs at hint <;> omega
    rw [if_pos (hsigned.mpr hv), if_pos (hsigned.mpr hv), if_pos hv, habs]
    rfl
  · have habs : v.toNat = v.toInt.natAbs := by
      split_ifs at hint <;> omega
    rw [if_neg (hv ∘ hsigned.mp), if_neg (hv ∘ hsigned.mp), if_neg hv, habs]
    rfl

theorem itoaText_sixteen (v : BitVec 32) :
    Common.itoaText v 16 = numeral 16 v.toNat := by
  have hsigned : ¬Common.Signed v 16 := fun h => absurd h.2 (by norm_num)
  rw [Common.itoaText, Common.magnitude, if_neg hsigned, if_neg hsigned]
  rfl

theorem writeNumber_sends {value : BitVec 32} {buf : ℕ} {base : ℤ}
    (hlo : 2 ≤ base) (hhi : base ≤ 36) (hfuel : 32 < fuel)
    (hlength : (Common.itoaText value base).length < 32) :
    ∃ m', writeNumber fuel value buf base p =
        some ({ p with mem := m' }.send (Common.itoaText value base)) ∧
      WritesWithin (Set.Ico buf (buf + 32)) p.mem m' := by
  obtain ⟨m', hitoa, hreads, hwrites⟩ :=
    Common.itoa_reads p.mem value buf hlo hhi hfuel
  refine ⟨m', ?_, hwrites.mono (Set.Ico_subset_Ico_right (by omega))⟩
  rw [writeNumber, hitoa]
  change (writestring m' fuel buf).bind _ = _
  rw [writestring_reads hreads (by omega)]
  rfl

/-- A conversion sends its text and takes its argument. -/
theorem convert_sends (hpassed : v.PassedBy frame p.mem (frame.arg p.taken))
    (htext : conversion p.char v = some text) (hfuel : Enough fuel [v]) :
    ∃ m', convert frame fuel p =
        some (({ p with mem := m', taken := p.taken + 1 }.look).send text) ∧
      WritesWithin frame.buffers p.mem m' := by
  rw [convert]
  cases v with
  | string s =>
      rw [conversion] at htext
      split_ifs at htext with hs
      obtain rfl := Option.some.inj htext
      refine ⟨p.mem, ?_, WritesWithin.refl _ _⟩
      rw [if_pos hs]
      change (writestring p.mem fuel (frame.arg p.taken).toNat).map _ = _
      rw [writestring_reads hpassed.1 (hfuel.2 s List.mem_cons_self)]
      rfl
  | number w =>
      obtain rfl : frame.arg p.taken = w := hpassed
      rw [conversion] at htext
      split_ifs at htext with hd hx hc
      · obtain rfl := Option.some.inj htext
        have hs : p.char ≠ 0x73 := by
          rw [hd]
          decide
        have hlength : (Common.itoaText (frame.arg p.taken) 10).length < 32 :=
          Common.length_itoaText_ten.trans_lt (by norm_num)
        obtain ⟨m', hwrite, hwrites⟩ := writeNumber_sends
          (p := { p.look with taken := p.taken + 1 }) (by norm_num)
          (by norm_num) hfuel.1 hlength
        rw [if_neg hs, if_pos hd, ← itoaText_ten]
        exact ⟨m', hwrite, hwrites.mono Set.subset_union_left⟩
      · obtain rfl := Option.some.inj htext
        have hs : p.char ≠ 0x73 := by
          rw [hx]
          decide
        have hlength : (Common.itoaText (frame.arg p.taken) 16).length < 32 :=
          Common.length_itoaText_sixteen.trans_lt (by norm_num)
        obtain ⟨m', hwrite, hwrites⟩ := writeNumber_sends
          (p := { p.look with taken := p.taken + 1 }.send [0x30, 0x78])
          (by norm_num) (by norm_num) hfuel.1 hlength
        rw [if_neg hs, if_neg hd, if_pos hx, ← itoaText_sixteen]
        refine ⟨m', hwrite.trans ?_, hwrites.mono Set.subset_union_right⟩
        simp only [State.send, State.look, List.append_assoc]
      · obtain rfl := Option.some.inj htext
        have hs : p.char ≠ 0x73 := by
          rw [hc]
          decide
        rw [if_neg hs, if_neg hd, if_neg hx, if_pos hc]
        exact ⟨p.mem, rfl, WritesWithin.refl _ _⟩

theorem convert_other (hd : ¬TakesValue p.char) :
    convert frame fuel p =
      some (p.look.send (if p.char = 0x25 then [0x25] else [])) := by
  simp only [TakesValue, not_or] at hd
  obtain ⟨hs, hd, hx, hc⟩ := hd
  rw [convert, if_neg hs, if_neg hd, if_neg hx, if_neg hc]
  by_cases hpercent : p.char = 0x25
  · rw [if_pos hpercent, if_pos hpercent]
  · rw [if_neg hpercent, if_neg hpercent, State.send, List.append_nil]

end Arguments

/-! ## Runs -/

/-- `printf` goes from `p` to `p'` and sends `text` on its way. -/
structure Sends (frame : Frame) (text : List UInt8) (p p' : State) : Prop where
  format : p.format ≤ p'.format
  output : p'.output = p.output ++ text
  reads : ∀ a ∈ p'.reads, a ∈ p.reads ∨ p.format ≤ a ∧ a < p'.format
  mem : WritesWithin frame.buffers p.mem p'.mem

/-- `k` rounds of the loop lead from `p` to `p'` and send `text`. -/
structure Reaches (frame : Frame) (fuel k : ℕ) (text : List UInt8)
    (p p' : State) : Prop where
  loop : ∀ rounds, printfLoop frame fuel (rounds + k) p =
    printfLoop frame fuel rounds p'
  sends : Sends frame text p p'

/-- The loop goes from `p` to the end of the format and sends `text`; behind a
dangling `%` it goes one byte too far. -/
def Expands (frame : Frame) (fuel : ℕ) (p : State) (format text : List UInt8) :
    Prop :=
  ∃ k ≤ format.length, ∃ p', Reaches frame fuel k text p p' ∧
    (¬Dangling format → p'.format = p.format + format.length) ∧
    (Dangling format → p'.format = p.format + format.length + 1)

section Runs

variable {frame : Frame} {fuel k n : ℕ} {p p₁ p' p'' : State} {m' : Memory}
variable {text text' format rest : List UInt8} {values : List Value}

theorem Sends.refl (frame : Frame) (p : State) : Sends frame [] p p :=
  ⟨le_rfl, (List.append_nil _).symm, fun _ => Or.inl, WritesWithin.refl _ _⟩

theorem Sends.trans (h : Sends frame text p p')
    (h' : Sends frame text' p' p'') : Sends frame (text ++ text') p p'' := by
  refine ⟨h.format.trans h'.format, ?_, fun a ha => ?_, h.mem.trans h'.mem⟩
  · rw [h'.output, h.output, List.append_assoc]
  · have hformat := h.format
    have hformat' := h'.format
    rcases h'.reads a ha with ha | ha
    · rcases h.reads a ha with ha | ha
      · exact Or.inl ha
      · exact Or.inr ⟨ha.1, by omega⟩
    · exact Or.inr ⟨by omega, ha.2⟩

theorem Reaches.refl (frame : Frame) (fuel : ℕ) (p : State) :
    Reaches frame fuel 0 [] p p :=
  ⟨fun _ => rfl, Sends.refl frame p⟩

theorem Reaches.round (h : Reaches frame fuel k text' p₁ p')
    (hchar : p.char ≠ 0) (hbody : body frame fuel p.look = some p₁)
    (hsends : Sends frame text p p₁) :
    Reaches frame fuel (k + 1) (text ++ text') p p' := by
  refine ⟨fun rounds => ?_, hsends.trans h.sends⟩
  rw [← add_assoc, printfLoop, if_neg hchar, hbody, Option.bind_some, h.loop]

theorem body_byte (frame : Frame) (fuel : ℕ) (hchar : p.char ≠ 0x25) :
    body frame fuel p.look = some (p.look.look.send [p.char]).advance :=
  if_neg hchar

theorem body_percent (frame : Frame) (fuel : ℕ) (hchar : p.char = 0x25) :
    body frame fuel p.look =
      (convert frame fuel p.look.look.advance).map State.advance :=
  if_pos hchar

theorem sends_byte (frame : Frame) (p : State) :
    Sends frame [p.char] p (p.look.look.send [p.char]).advance := by
  refine ⟨Nat.le_succ _, rfl, fun a ha => ?_, WritesWithin.refl _ _⟩
  simp only [State.advance, State.send, State.look, List.append_assoc,
    List.mem_append, List.mem_singleton, or_self] at ha ⊢
  exact ha.imp_right fun heq => ⟨heq.ge, heq.trans_lt (Nat.lt_succ_self _)⟩

/-- A conversion, behind the two tests of the `%` in front of it. -/
theorem sends_convert (text : List UInt8)
    (hwrites : WritesWithin frame.buffers p.mem m') :
    Sends frame text p (({ p.look.look.advance with
      mem := m', taken := n }.look).send text).advance := by
  refine ⟨Nat.le_add_right p.format 2, rfl, fun a ha => ?_, hwrites⟩
  simp only [State.advance, State.send, State.look, List.append_assoc,
    List.mem_append, List.mem_singleton] at ha ⊢
  refine ha.imp_right fun heq => ?_
  omega

theorem Expands.round (h : Expands frame fuel p₁ rest text')
    (hchar : p.char ≠ 0) (hbody : body frame fuel p.look = some p₁)
    (hsends : Sends frame text p p₁)
    (hformat : p₁.format = p.format + (n + 1))
    (hlength : format.length = rest.length + (n + 1))
    (hdangling : Dangling format ↔ Dangling rest) :
    Expands frame fuel p format (text ++ text') := by
  obtain ⟨k, hk, p', hreaches, hstays, hpasses⟩ := h
  refine ⟨k + 1, by omega, p', hreaches.round hchar hbody hsends, fun h => ?_,
    fun h => ?_⟩
  · rw [hstays (h ∘ hdangling.mpr), hformat, hlength]
    omega
  · rw [hpasses (hdangling.mp h), hformat, hlength]
    omega

/-- The buffers lie apart from the rest of the format. -/
theorem apart_rest {a d : ℕ}
    (h : Disjoint frame.buffers (Set.Ico a (a + (format.length + 1))))
    (hlength : format.length = rest.length + d) :
    Disjoint frame.buffers (Set.Ico (a + d) (a + d + (rest.length + 1))) :=
  h.mono_right (Set.Ico_subset_Ico (by omega) (by omega))

theorem printfLoop_expands (hreads : (Str.ptr p.format).Reads p.mem format)
    (hapart : Disjoint frame.buffers
      (Set.Ico p.format (p.format + (format.length + 1))))
    (hvalues : frame.Passes p.mem p.taken values)
    (htext : expand format values = some text)
    (hfuel : Enough fuel values) : Expands frame fuel p format text := by
  induction format using format_induction generalizing p values text with
  | nil =>
      obtain rfl : [] = text := Option.some.inj htext
      exact ⟨0, le_rfl, p, Reaches.refl frame fuel p, fun _ => rfl,
        fun h => absurd h id⟩
  | percent =>
      obtain rfl : [] = text := Option.some.inj htext
      obtain ⟨hchar, hnonzero, hnext⟩ := reads_cons hreads
      have hend : p.look.look.advance.char = 0 := reads_nil hnext
      have hbody := body_percent (p := p) frame fuel hchar
      rw [convert_other (by rw [hend]; decide), Option.map_some] at hbody
      rw [hend, if_neg (by decide)] at hbody
      have hsends : Sends frame [] p _ :=
        sends_convert (n := p.taken) [] (WritesWithin.refl _ _)
      have hround := (Reaches.refl frame fuel _).round
        (show p.char ≠ 0 from hchar.trans_ne hnonzero) hbody hsends
      exact ⟨1, le_rfl, _, hround, fun h => absurd dangling_percent h,
        fun _ => rfl⟩
  | conversion d format ih =>
      obtain ⟨hchar, hnonzero, hnext⟩ := reads_cons hreads
      obtain ⟨hd, -, hrest⟩ := reads_cons hnext
      have hdchar : p.look.look.advance.char = d := hd
      have hbody := body_percent (p := p) frame fuel hchar
      have hapart' := apart_rest (d := 2) hapart rfl
      by_cases htakes : TakesValue d
      · cases values with
        | nil =>
            rw [expand_conversion_nil htakes] at htext
            cases htext
        | cons v values =>
            rw [expand_conversion htakes, Option.bind_eq_some_iff] at htext
            obtain ⟨first, hfirst, htext⟩ := htext
            obtain ⟨later, hlater, rfl⟩ := Option.map_eq_some_iff.mp htext
            have hpassed : v.PassedBy frame p.look.look.advance.mem
                (frame.arg p.look.look.advance.taken) := hvalues.1
            have henough : Enough fuel [v] :=
              ⟨hfuel.1, fun s hs => hfuel.2 s
                (List.mem_singleton.mp hs ▸ List.mem_cons_self)⟩
            obtain ⟨m', hconvert, hwrites⟩ :=
              convert_sends hpassed (hdchar ▸ hfirst) henough
            rw [hconvert, Option.map_some] at hbody
            have hrun : Expands frame fuel ((({ p.look.look.advance with
                mem := m', taken := p.taken + 1 }.look).send first).advance)
                format later :=
              ih (reads_of_writesWithin hrest hapart' hwrites) hapart'
                (hvalues.2.congr hwrites) hlater hfuel.tail
            exact hrun.round (hchar.trans_ne hnonzero) hbody
              (sends_convert first hwrites) (n := 1) rfl rfl
              dangling_conversion
      · rw [expand_other htakes] at htext
        obtain ⟨later, hlater, rfl⟩ := Option.map_eq_some_iff.mp htext
        rw [convert_other (hdchar ▸ htakes), hdchar, Option.map_some] at hbody
        have hrun : Expands frame fuel ((p.look.look.advance.look).send
            (if d = 0x25 then [0x25] else [])).advance format later :=
          ih hrest hapart' hvalues hlater hfuel
        exact hrun.round (hchar.trans_ne hnonzero) hbody
          (sends_convert _ (WritesWithin.refl _ _)) (n := 1) rfl rfl
          dangling_conversion
  | byte c format hc ih =>
      obtain ⟨text, htail, rfl⟩ :=
        Option.map_eq_some_iff.mp ((expand_byte hc).symm.trans htext)
      obtain ⟨hchar, hnonzero, hrest⟩ := reads_cons hreads
      have hchar : p.char = c := hchar
      have hbody := body_byte (p := p) frame fuel (hchar.trans_ne hc)
      have hsends := sends_byte frame p
      rw [hchar] at hbody hsends
      have hrun : Expands frame fuel (p.look.look.send [c]).advance format
          text :=
        ih hrest (apart_rest (d := 1) hapart rfl) hvalues htail hfuel
      exact hrun.round (hchar.trans_ne hnonzero) hbody hsends (n := 0) rfl rfl
        (dangling_byte hc)

end Runs

/-! ## What `printf` reads and sends -/

/-- `printf` terminates, reads no byte of the format behind its `0`, and sends
`text` to the terminal. -/
def Prints (frame : Frame) (m : Memory) (a : ℕ) (format text : List UInt8) :
    Prop :=
  ∃ enough, ∀ fuel ≥ enough, ∃ p, printf frame fuel a m = some p ∧
    (∀ x ∈ p.reads, x ≤ a + format.length) ∧ p.output = text

section Prints

variable {frame : Frame} {m : Memory} {a fuel rounds : ℕ} {p p' : State}
variable {text format : List UInt8}

theorem exists_enough (values : List Value) :
    ∃ n, ∀ fuel ≥ n, Enough fuel values := by
  induction values with
  | nil => exact ⟨33, fun fuel hfuel => ⟨hfuel, fun _ h => by cases h⟩⟩
  | cons v values ih =>
      obtain ⟨n, hn⟩ := ih
      cases v with
      | string text =>
          refine ⟨max n (text.length + 1), fun fuel hfuel => ?_⟩
          have hrest := hn fuel ((le_max_left _ _).trans hfuel)
          refine ⟨hrest.1, fun s hs => ?_⟩
          rcases List.mem_cons.mp hs with heq | hs
          · obtain rfl := Value.string.inj heq
            exact (le_max_right _ _).trans hfuel
          · exact hrest.2 s hs
      | number v =>
          refine ⟨n, fun fuel hfuel => ⟨(hn fuel hfuel).1, fun s hs => ?_⟩⟩
          rcases List.mem_cons.mp hs with heq | hs
          · cases heq
          · exact (hn fuel hfuel).2 s hs

theorem writeNumber_reads {value : BitVec 32} {buf : ℕ} {base : ℤ}
    (h : writeNumber fuel value buf base p = some p') : p'.reads = p.reads := by
  obtain ⟨⟨buf, mem⟩, -, h⟩ := Option.bind_eq_some_iff.mp h
  obtain ⟨text, -, h⟩ := Option.bind_eq_some_iff.mp h
  obtain rfl := Option.some.inj h
  rfl

theorem convert_reads (h : convert frame fuel p = some p') {x : ℕ}
    (hx : x ∈ p.reads) : x ∈ p'.reads := by
  have hlook : x ∈ p.look.reads := List.mem_append_left _ hx
  rw [convert] at h
  split_ifs at h
  · obtain ⟨text, -, rfl⟩ := Option.map_eq_some_iff.mp h
    exact hlook
  · rw [writeNumber_reads h]
    exact hlook
  · rw [writeNumber_reads h]
    exact hlook
  · obtain rfl := Option.some.inj h
    exact hlook
  · obtain rfl := Option.some.inj h
    exact hlook
  · obtain rfl := Option.some.inj h
    exact hlook

theorem body_reads (h : body frame fuel p = some p') {x : ℕ}
    (hx : x ∈ p.reads) : x ∈ p'.reads := by
  rw [body] at h
  have hlook : x ∈ p.look.reads := List.mem_append_left _ hx
  split_ifs at h with hchar
  · obtain ⟨q, hq, rfl⟩ := Option.map_eq_some_iff.mp h
    exact convert_reads hq hlook
  · obtain rfl := Option.some.inj h
    exact hlook

theorem printfLoop_reads (h : printfLoop frame fuel rounds p = some p') {x : ℕ}
    (hx : x ∈ p.look.reads) : x ∈ p'.reads := by
  induction rounds generalizing p with
  | zero => cases h
  | succ rounds ih =>
      rw [printfLoop] at h
      split_ifs at h with hchar
      · obtain rfl := Option.some.inj h
        exact hx
      · obtain ⟨q, hq, hrest⟩ := Option.bind_eq_some_iff.mp h
        exact ih hrest (List.mem_append_left _ (body_reads hq hx))

/-- `printf` stays inside a format and sends its expansion if and only if the
format does not end in an odd number of `%`. -/
theorem printf_prints_iff (values : List Value)
    (hreads : (Str.ptr a).Reads m format)
    (hapart : Disjoint frame.buffers (Set.Ico a (a + (format.length + 1))))
    (hvalues : frame.Passes m 0 values)
    (htext : expand format values = some text) :
    Prints frame m a format text ↔ ¬Odd (trailingPercents format) := by
  rw [← dangling_iff]
  obtain ⟨n, hn⟩ := exists_enough values
  have hexpands {fuel : ℕ} (hfuel : n ≤ fuel) :
      Expands frame fuel ⟨a, 0, m, [], []⟩ format text :=
    printfLoop_expands hreads hapart hvalues htext (hn fuel hfuel)
  constructor
  · rintro ⟨enough, hprintf⟩ hdangling
    have hfuel := le_max_left (n + enough) (format.length + 1)
    obtain ⟨r, hr, hinside, -⟩ :=
      hprintf _ ((Nat.le_add_left enough n).trans hfuel)
    obtain ⟨k, hk, p, hreaches, -, hformat⟩ :=
      hexpands ((Nat.le_add_right n enough).trans hfuel)
    obtain ⟨rounds, hrounds⟩ := Nat.exists_eq_add_of_le' (hk.trans
      ((Nat.le_succ _).trans (le_max_right (n + enough) _)))
    rw [printf] at hr
    nth_rewrite 2 [hrounds] at hr
    rw [hreaches.loop] at hr
    have hread := hinside _ (printfLoop_reads hr
      (List.mem_append_right _ (List.mem_singleton_self _)))
    rw [hformat hdangling] at hread
    exact absurd hread (Nat.not_succ_le_self _)
  · intro hdangling
    refine ⟨n + format.length + 1, fun fuel hfuel => ?_⟩
    obtain ⟨k, hk, p, hreaches, hformat, -⟩ :=
      hexpands (show n ≤ fuel by omega)
    have hformat := hformat hdangling
    have hend : p.char = 0 := by
      rw [State.char, hformat]
      have hreads' := reads_of_writesWithin hreads hapart hreaches.sends.mem
      exact (hreads'.byte _ le_rfl).trans (List.getD_eq_default _ _ le_rfl)
    refine ⟨p.look, ?_, fun x hx => ?_, hreaches.sends.output⟩
    · have hrounds : fuel = fuel - k - 1 + 1 + k := by omega
      rw [printf]
      nth_rewrite 2 [hrounds]
      rw [hreaches.loop, printfLoop, if_pos hend]
    · rcases List.mem_append.mp hx with hx | hx
      · rcases hreaches.sends.reads x hx with hx | hx
        · cases hx
        · exact hx.2.le.trans hformat.le
      · exact (List.mem_singleton.mp hx).trans_le hformat.le

end Prints

/-- A call with one argument, and its buffers. -/
def letterFrame : Frame where
  arg _ := 0x41
  decimal := 0x1000
  hex := 0x1020

def formatMemory (bytes : List UInt8) : Memory where
  byte x := if x < 0x100 then 0 else bytes.getD (x - 0x100) 0
  stores := []

theorem letterFrame_apart {n : ℕ} (hn : n ≤ 0x100) :
    Disjoint letterFrame.buffers (Set.Ico 0x100 (0x100 + n)) := by
  rw [Frame.buffers, Set.disjoint_union_left]
  constructor
  · apply Set.Ico_disjoint_Ico.mpr
    simp only [letterFrame]
    omega
  · apply Set.Ico_disjoint_Ico.mpr
    simp only [letterFrame]
    omega

/-- The format `%c%%`. -/
theorem printf_prints_iff_letter :
    Prints letterFrame (formatMemory [0x25, 0x63, 0x25, 0x25]) 0x100
      [0x25, 0x63, 0x25, 0x25] [0x41, 0x25] := by
  refine (printf_prints_iff [.number 0x41] ⟨?_, by decide⟩
    (letterFrame_apart (by decide)) ⟨rfl, trivial⟩ rfl).mpr (by decide)
  decide

/-- The format `%`: the loop goes on with the bytes behind the `0`. -/
theorem printf_lonePercent :
    (Str.ptr 0x100).Reads (formatMemory [0x25, 0, 0x41]) [0x25] ∧
      Disjoint letterFrame.buffers (Set.Ico 0x100 (0x100 + 2)) ∧
      letterFrame.Passes (formatMemory [0x25, 0, 0x41]) 0 [] ∧
      expand [0x25] [] = some [] ∧
      ¬Prints letterFrame (formatMemory [0x25, 0, 0x41]) 0x100 [0x25] [] := by
  refine ⟨⟨by decide, by decide⟩, letterFrame_apart (by decide), trivial,
    rfl, ?_⟩
  rintro ⟨enough, hprints⟩
  obtain ⟨p, hp, -, houtput⟩ := hprints (enough + 3) (Nat.le_add_right _ _)
  have hreturns : printf letterFrame (enough + 3) 0x100
      (formatMemory [0x25, 0, 0x41]) =
        some ⟨0x103, 0, formatMemory [0x25, 0, 0x41],
          [0x100, 0x100, 0x101, 0x102, 0x102, 0x103], [0x41]⟩ := by
    simp [printf, printfLoop, body, convert, State.char, State.look,
      State.send, State.advance, formatMemory]
  rw [hreturns] at hp
  obtain rfl := Option.some.inj hp
  cases houtput

end BabOs.Terminal.Printf
