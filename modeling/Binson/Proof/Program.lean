import Binson.Base.Refine
import Binson.Proof.Depth
import Binson.Proof.ErrorCodes

/-!
# The test program

`tojson` reports an `errorno` that is not 0 behind the closing bracket. In a run that starts
with `errorno` 0, as that of `main` does, there is none to report: what fails is an `opendoc`,
and the call that gets its null pointer does not come to its end. So `tojson` does what it
would do without the report (`tojson_quiet`), and how `main` ends says whether `opendoc`
accepted the file (`main_exits`).
-/

namespace Binson

open Comp Printf

variable {m : Mem} {b : Nat} {x level isarray kind : Int} {w w' : World} {f g : Call → C Unit}

/-! ## `tojson` without its last two lines -/

/-- The body of `tojson`, without the report of `errorno`. -/
def quietBody (m : Mem) (tojson : Call → C Unit) : Call → C Unit
  | (buffer, level, isarray) => do
    print (opening isarray)
    let c ← load m buffer
    (if c ≠ 0 then Comp.loop (tojsonRound m tojson level isarray) (0, buffer) else pure ())
    print (closing isarray)

theorem local_quietBody (m : Mem) : Local (quietBody m) := by
  intro n f g hfg call
  obtain ⟨buffer, level, isarray⟩ := call
  have hround : ∀ r, Le n (tojsonRound m f level isarray r) (tojsonRound m g level isarray r) := by
    intro r
    obtain ⟨i, buffer⟩ := r
    have hvalue := local_printvalue m level n f g hfg buffer
    exact Le.bind (Le.refl _) (fun _ => Le.bind (Le.refl _) (fun _ =>
      Le.bind hvalue (fun _ => Le.refl _)))
  refine Le.bind (Le.refl _) (fun _ => Le.bind (Le.refl _) (fun c =>
    Le.bind ?_ (fun _ => Le.refl _)))
  by_cases hc : c ≠ 0
  · rw [if_pos hc, if_pos hc]
    exact Le.loop hround _
  · rw [if_neg hc, if_neg hc]
    exact Le.refl _

/-- `tojson` without the report of `errorno`. -/
def quiet (m : Mem) (buffer : Ptr) (level isarray : Int) : C Unit :=
  Comp.fix (quietBody m) (local_quietBody m) (buffer, level, isarray)

/-! ## The parts of a call -/

/-- There is no error, and the text `s` was printed first of all. -/
structure Clean (s : List UInt8) (w : World) : Prop where
  errorno : w.errorno = 0
  printed : s <+: w.stdout

/-- There is no error, or the call was made with the null pointer of one. -/
def Sound (s : List UInt8) (c : Call) (w : World) : Prop := Clean s w ∨ c.1 = .null

/-- With the length left to the bytes, `opendoc` judges by the last one they declare. -/
theorem opendoc_judges {p : Ptr} (h : (opendoc m (.addr b x) 0).out w = some (.done p w')) :
    ∃ len v, int32At (m b) x = some len ∧ m b (x + (len - 1)) = some v ∧
      ((v ≠ 0 ∧ p = .null ∧ w' = w.failed) ∨
        v = 0 ∧ p = .addr b (x + 4) ∧ w' = { w with errorno := 0 }) := by
  rcases loadInt32_cases m b x { w with errorno := 0 } with ⟨len, hlen, -⟩ | ⟨-, z, -, ho⟩
  · by_cases hint : InInt32 (len - 1)
    · rw [opendoc_declared hlen hint] at h
      obtain ⟨v, w₁, hv, hret⟩ := out_bind_eq_done h
      obtain rfl : w₁ = { w with errorno := 0 } := load_keeps _ _ _ _ hv
      refine ⟨len, v, hlen, load_eq_done hv, ?_⟩
      by_cases h0 : v ≠ 0
      · rw [if_pos h0, out_bind_done (setErrorno_done _), out_pure] at hret
        cases hret
        exact Or.inl ⟨h0, rfl, rfl⟩
      · rw [if_neg h0, out_pure] at hret
        cases hret
        exact Or.inr ⟨not_not.mp h0, rfl, rfl⟩
    · rw [opendoc, out_bind_done (setErrorno_done 0), if_pos rfl, getdoclen,
        out_bind_done (loadInt32_at hlen), out_bind_fault (subInt_overflow hint)] at h
      cases h
  · rw [opendoc, out_bind_done (setErrorno_done 0), if_pos rfl, getdoclen, out_bind_fault ho] at h
    cases h

theorem opendoc_null {p : Ptr} : (opendoc m .null 0).out w ≠ some (.done p w') := by
  rw [opendoc, out_bind_done (setErrorno_done 0), if_pos rfl, getdoclen, loadInt32,
    out_bind_fault (out_bind_fault load_null)]
  simp

theorem loadStr_keeps (p : Ptr) : (loadStr m p : C (List UInt8)).Keeps :=
  Keeps.loop (fun _ => (load_keeps _).bind fun _ => Keeps.ite (keeps_pure _) (keeps_pure _)) _

theorem loadDouble_keeps (p : Ptr) : (loadDouble m p : C (BitVec 64)).Keeps := by
  have hbytes : ∀ (n : Nat) (p : Ptr), (loadBytes m p n : C (List UInt8)).Keeps := by
    intro n
    induction n with
    | zero => exact fun _ => keeps_pure _
    | succ n ih => exact fun p => (load_keeps p).bind fun _ => (ih _).bind fun _ => keeps_pure _
  exact (hbytes 8 p).bind fun _ => keeps_pure _

theorem Clean.print {s : List UInt8} (h : Clean s w) (r : List UInt8) : Clean s (w.printed r) :=
  ⟨h.errorno, h.printed.trans (List.prefix_append _ _)⟩

section

variable {s : List UInt8}

/-- What is printed is no error. -/
theorem print_refines {P : World → Prop} (hP : ∀ w r, P w → P (w.printed r)) (r : List UInt8) :
    Refines P (fun _ => P) (print r) (print r) := by
  refine Refines.of_triple fun w a w' hw hout => ?_
  rw [print_done] at hout
  cases hout
  exact hP w r hw

theorem clean_print (r : List UInt8) : Refines (Clean s) (fun _ => Clean s) (print r) (print r) :=
  print_refines (fun _ r hw => hw.print r) r

theorem printsep_refines (i : Int) :
    Refines (Clean s) (fun _ => Clean s) (printsep i) (printsep i) := by
  unfold printsep
  by_cases hi : 0 < i
  · rw [if_pos hi]
    exact clean_print _
  · rw [if_neg hi]
    exact Refines.pure fun _ => id

theorem printkey_refines (isarray : Int) (buffer : Ptr) :
    Refines (Clean s) (fun _ => Clean s) (printkey m isarray buffer)
      (printkey m isarray buffer) := by
  unfold printkey
  by_cases ha : isarray = 0
  · rw [if_pos ha]
    exact (Refines.keeps (loadStr_keeps _)).bind fun _ => clean_print _
  · rw [if_neg ha]
    exact Refines.pure fun _ => id

/-- `getvalue` does not fail on an element. -/
theorem getvalue_refines {t : UInt8} {buffer : Ptr} (ht : t ≠ 0) :
    Refines (fun w => Clean s w ∧ (gettype m buffer).out w = some (.done t w)) (fun _ => Clean s)
      (getvalue m buffer) (getvalue m buffer) := by
  refine Refines.of_triple fun w v w' hw hout => ?_
  rcases getvalue_tells hout with ⟨hzero, -⟩ | ⟨_, -, -, -, rfl⟩
  · rw [hw.2] at hzero
    cases hzero
    exact absurd rfl ht
  · exact hw.1

/-- The switch prints the same, if what the calls print is the same. -/
theorem printvalue_refines (hfg : ∀ c, Refines (Sound s c) (fun _ => Clean s) (f c) (g c))
    (level : Int) (buffer : Ptr) :
    Refines (Clean s) (fun _ => Clean s) (printvalue m f level buffer)
      (printvalue m g level buffer) := by
  have htype : Refines (Clean s)
      (fun t w => Clean s w ∧ (gettype m buffer).out w = some (.done t w))
      (gettype m buffer) (gettype m buffer) := by
    refine Refines.of_triple fun w t w' hw hout => ?_
    obtain rfl : w' = w := load_keeps _ _ _ _ hout
    exact ⟨hw, hout⟩
  -- a container that does not open hands the null pointer to the call, which faults on it
  have hcall : ∀ (v : Ptr) (kind : Int), Refines (Clean s) (fun _ => Clean s)
      (opendoc m v 0 >>= fun p => addInt level 1 >>= fun l => f (p, l, kind))
      (opendoc m v 0 >>= fun p => addInt level 1 >>= fun l => g (p, l, kind)) := by
    intro v kind
    have hopen : Refines (Clean s) (fun p w => Sound s (p, level + 1, kind) w)
        (opendoc m v 0) (opendoc m v 0) := by
      refine Refines.of_triple fun w p w' hw hout => ?_
      cases v with
      | null => exact absurd hout opendoc_null
      | addr b x =>
        obtain ⟨len, t, -, -, ⟨-, rfl, -⟩ | ⟨-, -, rfl⟩⟩ := opendoc_judges hout
        · exact Or.inr rfl
        · exact Or.inl ⟨rfl, hw.printed⟩
    exact hopen.bind fun p => (Refines.keeps (addInt_keeps _ _)).bind fun l => hfg (p, l, kind)
  unfold printvalue
  refine htype.bind fun t => ?_
  cases ht : BsonType.ofByte t with
  | none =>
    exact (Refines.keeps (load_keeps _)).bind fun _ => (clean_print _).weaken (fun _ h => h.1)
      fun _ _ => id
  | some bt =>
    have hne : t ≠ 0 := by
      rintro rfl
      exact absurd ht (by simp [BsonType.ofByte])
    cases bt with
    | int32bit =>
      exact (getvalue_refines hne).bind fun _ =>
        (Refines.keeps (loadInt32_keeps _)).bind fun _ => clean_print _
    | flop64bit =>
      exact (getvalue_refines hne).bind fun _ =>
        (Refines.keeps (loadDouble_keeps _)).bind fun _ => clean_print _
    | boolfalsetrue =>
      exact (getvalue_refines hne).bind fun _ =>
        (Refines.keeps (load_keeps _)).bind fun _ => clean_print _
    | symbol =>
      exact (getvalue_refines hne).bind fun _ =>
        (Refines.keeps (loadStr_keeps _)).bind fun _ => clean_print _
    | jscode =>
      exact (getvalue_refines hne).bind fun _ =>
        (Refines.keeps (loadStr_keeps _)).bind fun _ => clean_print _
    | utf8string =>
      exact (getvalue_refines hne).bind fun _ =>
        (Refines.keeps (loadStr_keeps _)).bind fun _ => clean_print _
    | nullvalue => exact (clean_print _).weaken (fun _ h => h.1) fun _ _ => id
    | int64bit =>
      exact (getvalue_refines hne).bind fun _ =>
        (Refines.keeps (load_keeps _)).bind fun _ => clean_print _
    | embededdoc => exact (getvalue_refines hne).bind fun v => hcall v 0
    | array => exact (getvalue_refines hne).bind fun v => hcall v 1
    | _ =>
      exact (Refines.keeps (load_keeps _)).bind fun _ => (clean_print _).weaken (fun _ h => h.1)
        fun _ _ => id

theorem tojsonRound_refines (hfg : ∀ c, Refines (Sound s c) (fun _ => Clean s) (f c) (g c))
    (level isarray : Int) (r : Int × Ptr) :
    Refines (Clean s) (fun q w => Sum.elim (fun _ => Clean s w) (fun _ => Clean s w) q)
      (tojsonRound m f level isarray r) (tojsonRound m g level isarray r) := by
  obtain ⟨i, buffer⟩ := r
  refine (printsep_refines i).bind fun _ => (printkey_refines isarray buffer).bind fun _ =>
    (printvalue_refines hfg level buffer).bind fun _ => (Refines.keeps (addInt_keeps _ _)).bind
    fun _ => (Refines.keeps (nextitem_keeps _)).bind fun _ => (Refines.keeps (load_keeps _)).bind
    fun t => ?_
  by_cases ht : t ≠ 0
  · rw [if_pos ht]
    exact Refines.pure fun _ => id
  · rw [if_neg ht]
    exact Refines.pure fun _ => id

/-- A call does the same, if its recursive calls do and what it ends with does. -/
theorem body_refines {c d : C Unit} (hfg : ∀ c, Refines (Sound s c) (fun _ => Clean s) (f c) (g c))
    (hend : Refines (Clean s) (fun _ => Clean s) c d) (call : Call) :
    Refines (Sound s call) (fun _ => Clean s)
      (print (opening call.2.2) >>= fun _ => load m call.1 >>= fun t =>
        (if t ≠ 0 then loop (tojsonRound m f call.2.1 call.2.2) (0, call.1) else pure ()) >>=
          fun _ => c)
      (print (opening call.2.2) >>= fun _ => load m call.1 >>= fun t =>
        (if t ≠ 0 then loop (tojsonRound m g call.2.1 call.2.2) (0, call.1) else pure ()) >>=
          fun _ => d) := by
  have hprint : Refines (Sound s call) (fun _ => Sound s call) (print (opening call.2.2))
      (print (opening call.2.2)) := print_refines (fun _ r hw => hw.imp_left (·.print r)) _
  -- behind the first read there is no null pointer
  have hload : Refines (Sound s call) (fun _ => Clean s) (load m call.1 : C UInt8)
      (load m call.1) := by
    refine Refines.of_triple fun w t w' hw hout => ?_
    obtain ⟨b, x, hptr⟩ := load_ne_null hout
    obtain rfl : w' = w := load_keeps _ _ _ _ hout
    rcases hw with hclean | hnull
    · exact hclean
    · rw [hptr] at hnull
      cases hnull
  refine hprint.bind fun _ => hload.bind fun t => Refines.bind (Q := fun _ => Clean s) ?_
    fun _ => hend
  by_cases ht : t ≠ 0
  · rw [if_pos ht, if_pos ht]
    exact Refines.loop (I := fun _ => Clean s) (tojsonRound_refines hfg call.2.1 call.2.2) _
  · rw [if_neg ht, if_neg ht]
    exact Refines.pure fun _ => id

/-- Without an error the report prints nothing. -/
theorem report_out (r : List UInt8) (hw : Clean s w) :
    (print r >>= fun _ => printerror).out w = (print r).out w := by
  rw [out_bind_done (print_done r), printerror_none (hw.print r).errorno, print_done]

theorem report_refines (r : List UInt8) :
    Refines (Clean s) (fun _ => Clean s) (print r >>= fun _ => printerror) (print r) := by
  intro w o hw ho
  rw [report_out r hw] at ho
  exact clean_print r w o hw ho

theorem refines_report (r : List UInt8) :
    Refines (Clean s) (fun _ => Clean s) (print r) (print r >>= fun _ => printerror) := by
  intro w o hw ho
  rw [report_out r hw]
  exact clean_print r w o hw ho

theorem tojsonBody_refines (hfg : ∀ c, Refines (Sound s c) (fun _ => Clean s) (f c) (g c))
    (c : Call) : Refines (Sound s c) (fun _ => Clean s) (tojsonBody m f c) (quietBody m g c) := by
  obtain ⟨buffer, level, isarray⟩ := c
  exact body_refines hfg (report_refines _) (buffer, level, isarray)

theorem quietBody_refines (hfg : ∀ c, Refines (Sound s c) (fun _ => Clean s) (f c) (g c))
    (c : Call) : Refines (Sound s c) (fun _ => Clean s) (quietBody m f c) (tojsonBody m g c) := by
  obtain ⟨buffer, level, isarray⟩ := c
  exact body_refines hfg (refines_report _) (buffer, level, isarray)

theorem tojson_refines_quiet (buffer : Ptr) (level isarray : Int) :
    Refines (Sound s (buffer, level, isarray)) (fun _ => Clean s) (tojson m buffer level isarray)
      (quiet m buffer level isarray) := by
  unfold tojson Call.run quiet
  exact Refines.fix (fun _ _ => tojsonBody_refines) _

theorem quiet_refines_tojson (buffer : Ptr) (level isarray : Int) :
    Refines (Sound s (buffer, level, isarray)) (fun _ => Clean s) (quiet m buffer level isarray)
      (tojson m buffer level isarray) := by
  unfold tojson Call.run quiet
  exact Refines.fix (fun _ _ => quietBody_refines) _

end

/--
**The error report of `tojson` is dead code** in every run that starts without an error.

In any memory and from any pointer, `tojson` comes to what it comes to without the two lines:
it prints the same, runs into the same fault or does not end either. Where it ends there is no
error.
-/
theorem tojson_quiet {m : Mem} {w : World} (hw : w.errorno = 0) (buffer : Ptr)
    (level isarray : Int) :
    (tojson m buffer level isarray).out w = (quiet m buffer level isarray).out w ∧
      ∀ w', (tojson m buffer level isarray).out w = some (.done () w') → w'.errorno = 0 := by
  have h := @tojson_refines_quiet m w.stdout buffer level isarray
  have h' := @quiet_refines_tojson m w.stdout buffer level isarray
  have hsound : Sound w.stdout (buffer, level, isarray) w := Or.inl ⟨hw, List.prefix_rfl⟩
  exact ⟨h.out_eq h' hsound, fun w' hout => ((h w _ hsound hout).2 () w' rfl).errorno⟩

theorem tojson_quiet_unclosedMem :
    (tojson unclosedMem (.addr 0 4) 1 0).out ⟨0, []⟩ =
        (quiet unclosedMem (.addr 0 4) 1 0).out ⟨0, []⟩ ∧
      ∀ w', (tojson unclosedMem (.addr 0 4) 1 0).out ⟨0, []⟩ = some (.done () w') →
        w'.errorno = 0 := tojson_quiet rfl _ _ _

/-! ## `main` -/

/-- A call that ends has printed its brackets around what it printed, and left no error. -/
theorem tojson_brackets {buffer : Ptr} (hw : w.errorno = 0)
    (h : (tojson m buffer level isarray).out w = some (.done () w')) :
    ∃ text, w' = ⟨0, w.stdout ++ (opening isarray ++ text ++ closing isarray)⟩ := by
  have hcalls : ∀ c : Call, Refines (Sound (w.stdout ++ opening isarray) c)
      (fun _ => Clean (w.stdout ++ opening isarray)) (c.run m) (quiet m c.1 c.2.1 c.2.2) := by
    intro c
    obtain ⟨buffer, level, isarray⟩ := c
    exact tojson_refines_quiet buffer level isarray
  have hopened : Clean (w.stdout ++ opening isarray) (w.printed (opening isarray)) :=
    ⟨hw, List.prefix_rfl⟩
  rw [tojson, call_out, tojsonBody, out_bind_done (print_done _)] at h
  obtain ⟨t, w₁, ht, h⟩ := out_bind_eq_done h
  obtain rfl : w₁ = w.printed (opening isarray) := load_keeps _ _ _ _ ht
  obtain ⟨_, w₂, hloop, h⟩ := out_bind_eq_done h
  -- the elements of the level leave no error behind
  have hclean : Clean (w.stdout ++ opening isarray) w₂ := by
    by_cases h0 : t ≠ 0
    · rw [if_pos h0] at hloop
      have hrounds := Refines.loop (I := fun _ => Clean (w.stdout ++ opening isarray))
        (tojsonRound_refines (m := m) hcalls level isarray) (0, buffer)
      exact (hrounds _ _ hopened hloop).2 _ w₂ rfl
    · rw [if_neg h0, out_pure] at hloop
      cases hloop
      exact hopened
  obtain ⟨text, htext⟩ := hclean.printed
  rw [report_out _ hclean, print_done] at h
  cases h
  refine ⟨text, ?_⟩
  obtain ⟨e, out⟩ := w₂
  obtain rfl : e = 0 := hclean.errorno
  obtain rfl : w.stdout ++ opening isarray ++ text = out := htext
  simp [World.printed]

section

variable {sys : System} {program filename : List UInt8} {rest : List (List UInt8)}

/-- With a file and enough memory, `main` opens the document and prints it or reports the error. -/
theorem main_open (hmalloc : sys.malloc (sys.file filename).length = true) {p : Ptr} {w₁ : World}
    (hopen : (opendoc (Mem.ofObjects [sys.file filename]) (.addr 0 0) 0).out w =
      some (.done p w₁)) :
    (main sys program (filename :: rest)).out w =
      if w₁.errorno ≠ 0 then some (.done ⟨1, ascii "ERROR #" ++ decimal w₁.errorno⟩ w₁)
      else (tojson (Mem.ofObjects [sys.file filename]) p 1 0 >>= fun _ => print (ascii "\n") >>=
        fun _ => pure ⟨0, []⟩).out w₁ := by
  unfold main
  dsimp only
  rw [if_neg (by simp [hmalloc]), out_bind_done hopen, out_bind_done (out_get w₁)]
  by_cases h0 : w₁.errorno ≠ 0
  · rw [if_pos h0, if_pos h0]
    exact out_pure _ _
  · rw [if_neg h0, if_neg h0]

/--
**How `main` ends, on any file.**

If it ends, the file has a byte where its first four bytes say that the document ends. If that
is not zero, the exit status is 1, `stderr` has the error and nothing is printed. If it is, the
exit status is 0 and a text in braces and a line end are printed, with no error in it or left
behind, however much is wrong inside. And in the first case it does end.
-/
theorem main_exits {sys : System} {program filename : List UInt8} {rest : List (List UInt8)}
    (hmalloc : sys.malloc (sys.file filename).length = true) (w : World) :
    (∀ x w', (main sys program (filename :: rest)).out w = some (.done x w') →
      ∃ len v, int32At (ofBytes 0 (sys.file filename)) 0 = some len ∧
        ofBytes 0 (sys.file filename) (len - 1) = some v ∧
        ((v ≠ 0 ∧ x = ⟨1, ascii "ERROR #2"⟩ ∧ w' = ⟨2, w.stdout⟩) ∨
          v = 0 ∧ x = ⟨0, []⟩ ∧
            ∃ text, w' = ⟨0, w.stdout ++ (ascii "\x7b " ++ text ++ ascii " \x7d\n")⟩)) ∧
    (∀ len v, int32At (ofBytes 0 (sys.file filename)) 0 = some len → InInt32 (len - 1) →
      ofBytes 0 (sys.file filename) (len - 1) = some v → v ≠ 0 →
      (main sys program (filename :: rest)).out w =
        some (.done ⟨1, ascii "ERROR #2"⟩ ⟨2, w.stdout⟩)) := by
  have hobj : Mem.ofObjects [sys.file filename] 0 = ofBytes 0 (sys.file filename) := rfl
  have herror : ascii "ERROR #" ++ decimal ERR_BADSIZEORENDING = ascii "ERROR #2" := by decide
  constructor
  · intro x w' h
    obtain ⟨p, w₁, hopen⟩ : ∃ p w₁, (opendoc (Mem.ofObjects [sys.file filename]) (.addr 0 0) 0).out
        w = some (.done p w₁) := by
      unfold main at h
      dsimp only at h
      rw [if_neg (by simp [hmalloc])] at h
      obtain ⟨p, w₁, hopen, -⟩ := out_bind_eq_done h
      exact ⟨p, w₁, hopen⟩
    rw [main_open hmalloc hopen] at h
    obtain ⟨len, v, hlen, hv, hcase⟩ := opendoc_judges hopen
    rw [hobj] at hlen hv
    rw [zero_add] at hv
    refine ⟨len, v, hlen, hv, ?_⟩
    rcases hcase with ⟨hne, rfl, rfl⟩ | ⟨rfl, rfl, rfl⟩
    · left
      rw [if_pos (by simp [World.failed, ERR_BADSIZEORENDING])] at h
      cases h
      exact ⟨hne, by rw [← herror]; rfl, rfl⟩
    · right
      rw [if_neg (by simp)] at h
      obtain ⟨_, w₂, hprint, h⟩ := out_bind_eq_done h
      obtain ⟨text, rfl⟩ := tojson_brackets rfl hprint
      rw [out_bind_done (print_done _), out_pure] at h
      cases h
      refine ⟨rfl, rfl, text, ?_⟩
      have hend : closing 0 ++ ascii "\n" = ascii " \x7d\n" := by decide
      simp only [World.printed, ← hend, List.append_assoc]
      rfl
  · intro len v hlen hint hv hne
    rw [← hobj] at hlen hv
    rw [← zero_add (len - 1)] at hv
    have hopen : (opendoc (Mem.ofObjects [sys.file filename]) (.addr 0 0) 0).out w =
        some (.done .null w.failed) := by
      rw [opendoc_declared hlen hint, out_bind_done (load_done hv), if_pos hne,
        out_bind_done (setErrorno_done _)]
      exact out_pure _ _
    rw [main_open hmalloc hopen, if_pos (by simp [World.failed, ERR_BADSIZEORENDING]), ← herror]
    rfl

/-- A system in which every file has the same contents, and there is enough memory. -/
def System.ofFile (content : List UInt8) : System := ⟨fun _ => content, fun _ => true⟩

theorem main_exits_unclosed :
    (main (System.ofFile [5, 0, 0, 0, 1]) [] [[97]]).out ⟨0, []⟩ =
      some (.done ⟨1, ascii "ERROR #2"⟩ ⟨2, []⟩) := by
  have hbytes : leBytes 4 5 = [5, 0, 0, 0] := by decide
  have hlen : int32At (ofBytes 0 [5, 0, 0, 0, 1]) 0 = some 5 := by
    refine int32At_leBytes ?_ (by decide)
    rw [hbytes]
    exact ⟨rfl, rfl, rfl, rfl, True.intro⟩
  exact (main_exits rfl ⟨0, []⟩).2 5 1 hlen (by decide) rfl (by decide)

theorem main_shows {es : List Elem}
    (hdoc : Holds (Mem.ofObjects [sys.file filename] 0) 0 (encode es))
    (hfits : (encode es).length < 2 ^ 31)
    (hmalloc : sys.malloc (sys.file filename).length = true) (w : World) :
    (main sys program (filename :: rest)).out w =
      some (.done ⟨0, []⟩ ⟨0, w.stdout ++ (opening 0 ++ levelText 0 (elemsShown es) ++ closing 0 ++
        ascii "\n")⟩) := by
  have hout := output_shows hdoc hfits w
  rw [out_bind_done (opendoc_done hdoc hfits)] at hout
  rw [main_open hmalloc (opendoc_done hdoc hfits), if_neg (by simp), out_bind_done hout,
    out_bind_done (print_done _), callText_zero, World.printed]
  simp

/--
**What `main` prints for a file that begins with a document**, whatever is behind it: the tree
as it is shown, and a line end.
-/
theorem main_prints {sys : System} {program filename tail : List UInt8}
    {rest : List (List UInt8)} {es : List Elem} (hfile : sys.file filename = encode es ++ tail)
    (hfits : (encode es).length < 2 ^ 31)
    (hmalloc : sys.malloc (sys.file filename).length = true) (w : World) :
    (main sys program (filename :: rest)).out w =
      some (.done ⟨0, []⟩ ⟨0, w.stdout ++ (opening 0 ++ levelText 0 (elemsShown es) ++ closing 0 ++
        ascii "\n")⟩) := by
  have hdoc : Holds (Mem.ofObjects [sys.file filename] 0) 0 (encode es) := by
    rw [hfile]
    exact Holds.left (Mem.ofObjects_holds rfl)
  exact main_shows hdoc hfits hmalloc w

end

theorem main_prints_cutElem :
    (main (System.ofFile (encode [cutElem] ++ [7])) [] [[97]]).out ⟨0, []⟩ =
      some (.done ⟨0, []⟩ ⟨0, ascii "\x7b \"a\" : \"x\" \x7d\n"⟩) := by
  have htext : opening 0 ++ levelText 0 (elemsShown [cutElem]) ++ closing 0 ++ ascii "\n" =
      ascii "\x7b \"a\" : \"x\" \x7d\n" := by rfl
  have hprints := @main_prints (System.ofFile (encode [cutElem] ++ [7])) [] [97] [7] [] _ rfl
    cutElem_fits rfl ⟨0, []⟩
  rwa [htext] at hprints

end Binson
