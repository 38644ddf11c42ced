import BabOs.Library.Fuel
import BabOs.Shell.Layout
import BabOs.Terminal.Expansion

/-!
# What the shell prints

A call of `printf` with one of the constants sends the expansion of its format
and writes to the two buffers on the stack only.
-/

namespace BabOs.Terminal.Printf

open Memory Fuel

/-! ## Fuel -/

section Steady

variable {frame : Frame}

theorem steady_writestring (m : Memory) (data : ℕ) :
    Steady (writestring m · data) := by
  refine steady_of_succ fun n => ?_
  induction n generalizing data with
  | zero => exact fun _ h => absurd h (Option.some_ne_none _).symm
  | succ n ih =>
      intro text h
      rw [writestring] at h ⊢
      split_ifs at h ⊢
      · exact h
      · obtain ⟨rest, hrest, rfl⟩ := Option.map_eq_some_iff.mp h
        rw [ih (data + 1) rest hrest, Option.map_some]

theorem steady_digitLoop (base v ptr : ℕ) (m : Memory) :
    Steady (Common.digitLoop base · v ptr m) := by
  refine steady_of_succ fun n => ?_
  induction n generalizing v ptr m with
  | zero => exact fun _ h => absurd h (Option.some_ne_none _).symm
  | succ n ih =>
      intro x h
      rw [Common.digitLoop] at h ⊢
      split_ifs at h ⊢
      · exact h
      · exact ih _ _ _ x h

theorem steady_reverseLoop (low ptr : ℕ) (m : Memory) :
    Steady (Common.reverseLoop · low ptr m) := by
  refine steady_of_succ fun n => ?_
  induction n generalizing low ptr m with
  | zero => exact fun _ h => absurd h (Option.some_ne_none _).symm
  | succ n ih =>
      intro x h
      rw [Common.reverseLoop] at h ⊢
      split_ifs at h ⊢
      · exact ih _ _ _ x h
      · exact h

theorem steady_itoa (value : BitVec 32) (str : ℕ) (base : ℤ) (m : Memory) :
    Steady (Common.itoa · value str base m) := by
  refine Steady.ite (fun _ => steady_const _) fun _ => Steady.map ?_ _
  refine Steady.bind (Steady.ite (fun _ => steady_const _) fun _ => ?_) ?_
  · exact steady_digitLoop _ _ _ _
  · exact fun _ => steady_reverseLoop _ _ _

theorem steady_writeNumber (value : BitVec 32) (buf : ℕ) (base : ℤ)
    (p : State) : Steady (writeNumber · value buf base p) := by
  refine Steady.bind (steady_itoa _ _ _ _) fun x => ?_
  exact Steady.bind (steady_writestring _ _) fun _ => steady_const _

theorem steady_convert (p : State) : Steady (convert frame · p) := by
  refine Steady.ite (fun _ => (steady_writestring _ _).map _) fun _ => ?_
  refine Steady.ite (fun _ => steady_writeNumber _ _ _ _) fun _ => ?_
  refine Steady.ite (fun _ => steady_writeNumber _ _ _ _) fun _ => ?_
  exact Steady.ite (fun _ => steady_const _) fun _ => steady_const _

theorem steady_body (p : State) : Steady (body frame · p) :=
  Steady.ite (fun _ => (steady_convert _).map _) fun _ => steady_const _

theorem steady_printf (format : ℕ) (m : Memory) :
    Steady (printf frame · format m) := by
  refine Steady.diagonal (F := fun fuel rounds =>
    printfLoop frame fuel rounds ⟨format, 0, m, [], []⟩) (fun rounds => ?_) ?_
  · generalize (⟨format, 0, m, [], []⟩ : State) = p
    induction rounds generalizing p with
    | zero => exact steady_const none
    | succ rounds ih =>
        exact Steady.ite (fun _ => steady_const _) fun _ =>
          (steady_body _).bind fun p => ih p
  · intro fuel
    refine steady_of_succ fun n => ?_
    generalize (⟨format, 0, m, [], []⟩ : State) = p
    induction n generalizing p with
    | zero => exact fun _ h => absurd h (Option.some_ne_none _).symm
    | succ n ih =>
        intro x h
        rw [printfLoop] at h ⊢
        split_ifs at h ⊢
        · exact h
        · obtain ⟨q, hq, hrest⟩ := Option.bind_eq_some_iff.mp h
          exact Option.bind_eq_some_iff.mpr ⟨q, hq, ih q x hrest⟩

end Steady

theorem printf_settles {frame : Frame} {m : Memory} {a : ℕ}
    {format text : List UInt8} {values : List Value}
    (hreads : (Str.ptr a).Reads m format)
    (hapart : Disjoint frame.buffers (Set.Ico a (a + (format.length + 1))))
    (hvalues : frame.Passes m 0 values)
    (htext : expand format values = some text) (hdangling : ¬Dangling format) :
    ∃ p, Settles (printf frame · a m) p ∧ p.output = text ∧
      WritesWithin frame.buffers m p.mem := by
  obtain ⟨n, hn⟩ := exists_enough values
  have hle : n ≤ n + format.length + 1 := by omega
  obtain ⟨k, hk, p, hreaches, hformat, -⟩ :=
    printfLoop_expands (p := ⟨a, 0, m, [], []⟩) hreads hapart hvalues htext
      (hn _ hle)
  have hend : p.char = 0 := by
    rw [State.char, hformat hdangling]
    have hreads' := reads_of_writesWithin hreads hapart hreaches.sends.mem
    exact (hreads'.byte _ le_rfl).trans (List.getD_eq_default _ _ le_rfl)
  refine ⟨p.look, (steady_printf a m).settles (n := n + format.length + 1) ?_,
    hreaches.sends.output, hreaches.sends.mem⟩
  have hrounds : n + format.length + 1 = n + format.length - k + 1 + k := by
    omega
  rw [printf]
  nth_rewrite 2 [hrounds]
  rw [hreaches.loop, printfLoop, if_pos hend]

end BabOs.Terminal.Printf

namespace BabOs.Shell

open Memory Initrd Kheap Blocks Fuel Terminal.Printf

/-! ## Calls of the shell -/

theorem not_dangling_text (l : Literal) : ¬Dangling l.text := by
  rw [dangling_iff]
  cases l <;> decide

section Expand

variable {a b t : List UInt8} {d : UInt8} {v : Value} {values : List Value}
variable {format : List UInt8}

theorem expand_plain (ha : 0x25 ∉ a) :
    expand (a ++ format) values = (expand format values).map (a ++ ·) := by
  induction a with
  | nil =>
      rw [List.nil_append]
      exact Option.map_id'.symm
  | cons c a ih =>
      rw [List.mem_cons, not_or] at ha
      rw [List.cons_append, expand_byte (Ne.symm ha.1), ih ha.2,
        Option.map_map]
      rfl

theorem expand_text (ha : 0x25 ∉ a) : expand a values = some a := by
  have hplain : expand (a ++ []) values = (expand [] values).map (a ++ ·) :=
    expand_plain ha
  rw [List.append_nil] at hplain
  rw [hplain, expand, Option.map_some, List.append_nil]

theorem expand_one (hformat : format = a ++ 0x25 :: d :: b) (ha : 0x25 ∉ a)
    (hb : 0x25 ∉ b) (hd : TakesValue d) (ht : conversion d v = some t) :
    expand format [v] = some (a ++ (t ++ b)) := by
  rw [hformat, expand_plain ha, expand_conversion hd, ht, expand_text hb]
  rfl

theorem conversion_string (t : List UInt8) :
    conversion 0x73 (.string t) = some t := by
  rw [conversion, if_pos rfl]

theorem conversion_number (v : BitVec 32) :
    conversion 0x64 (.number v) = some (signedNumeral v.toInt) := by
  rw [conversion, if_pos rfl]

theorem expand_entry (t : List UInt8) :
    expand Literal.entry.text [.string t] = some (t ++ ascii "  ") :=
  expand_one (show Literal.entry.text = [] ++ 0x25 :: 0x73 :: ascii "  " by decide)
    (by decide) (by decide) (by decide) (conversion_string t)

theorem expand_file (v : BitVec 32) :
    expand Literal.file.text [.number v] =
      some (ascii "(file, size " ++ (signedNumeral v.toInt ++ ascii ")\n")) :=
  expand_one (show Literal.file.text =
      ascii "(file, size " ++ 0x25 :: 0x64 :: ascii ")\n" by decide)
    (by decide) (by decide) (by decide) (conversion_number v)

theorem expand_content (t : List UInt8) :
    expand Literal.content.text [.string t] = some (t ++ ascii "\n") :=
  expand_one (show Literal.content.text = [] ++ 0x25 :: 0x73 :: ascii "\n"
      by decide)
    (by decide) (by decide) (by decide) (conversion_string t)

theorem expand_notFound (t : List UInt8) :
    expand Literal.notFound.text [.string t] =
      some (ascii "File not found: " ++ (t ++ ascii "\n")) :=
  expand_one (show Literal.notFound.text =
      ascii "File not found: " ++ 0x25 :: 0x73 :: ascii "\n" by decide)
    (by decide) (by decide) (by decide) (conversion_string t)

theorem expand_unknown (t : List UInt8) :
    expand Literal.unknown.text [.string t] =
      some (ascii "Unknown command: " ++ (t ++ ascii "\n")) :=
  expand_one (show Literal.unknown.text =
      ascii "Unknown command: " ++ 0x25 :: 0x73 :: ascii "\n" by decide)
    (by decide) (by decide) (by decide) (conversion_string t)

end Expand

section Print

variable {σ : Type} {link : Link} {files : List File} {bs : List Blk}
variable {s s' : State σ} {l : Literal} {m : Memory} {a : ℕ}
variable {args : List (BitVec 32)} {values : List Value} {text : List UInt8}

theorem passes_string (hreads : (Str.ptr a).Reads m text) (ha : a < 2 ^ 32)
    (hapart : Disjoint link.buffers (Set.Ico a (a + (text.length + 1)))) :
    (link.frame [BitVec.ofNat 32 a]).Passes m 0 [.string text] := by
  have haddr : ((link.frame [BitVec.ofNat 32 a]).arg 0).toNat = a :=
    Nat.mod_eq_of_lt ha
  refine ⟨?_, trivial⟩
  rw [Value.PassedBy, haddr]
  exact ⟨hreads, hapart⟩

theorem passes_number (link : Link) (m : Memory) (v : BitVec 32) :
    (link.frame [v]).Passes m 0 [.number v] :=
  ⟨rfl, trivial⟩

/-- A call of `printf` sends the expansion of the constant. -/
theorem settles_print (hconstant : (Str.ptr (link.literal l)).Reads s.mem l.text)
    (hapart : Disjoint link.constants link.buffers)
    (hvalues : (link.frame args).Passes s.mem 0 values)
    (htext : expand l.text values = some text) :
    ∃ s', Settles (print link · l args s) s' ∧
      Emits link.buffers text s s' := by
  have hbuffers : Disjoint (link.frame args).buffers link.constants :=
    hapart.symm
  obtain ⟨p, hsettles, hout, hwrites⟩ := printf_settles hconstant
    (hbuffers.mono_right (link.literal_subset_constants l)) hvalues htext
    (not_dangling_text l)
  refine ⟨_, hsettles.bind (settles_some _), p.mem, s.ramdisk.mem,
    s.ramdisk.loads, hwrites.same, ?_⟩
  rw [hout]
  rfl

theorem Placed.constants_buffers {r : Initrd.State}
    (h : Placed link files r bs) : Disjoint link.constants link.buffers :=
  h.fixed_scratch.mono Set.subset_union_right Set.subset_union_left

theorem Ready.print_settles (h : Ready link files s bs)
    (hvalues : (link.frame args).Passes s.mem 0 values)
    (htext : expand l.text values = some text) :
    ∃ s', Settles (print link · l args s) s' ∧
      Emits link.buffers text s s' :=
  settles_print (h.constant l) h.placed.constants_buffers hvalues htext

/-- A constant without conversions is shown as it is. -/
theorem Ready.print_text_settles (h : Ready link files s bs)
    (hplain : 0x25 ∉ l.text) :
    ∃ s', Settles (print link · l [] s) s' ∧
      Emits link.buffers l.text s s' := by
  have hvalues : (link.frame []).Passes s.mem 0 [] := trivial
  exact h.print_settles hvalues (expand_text hplain)

end Print

end BabOs.Shell
