import Binson.Model.Binson
import Binson.Base.Printf

/-!
# `testsuite/testbinson.c`

The test program. `tojson` recurses into documents and arrays through the pointer that
`opendoc` returns, whatever that is, and goes over the elements of a level with
`nextitem`; what it prints is appended to `stdout`. `main` runs it on a file.
-/

namespace Binson

open Printf

/-- `printf` of a text that is made up already. -/
def print (s : List UInt8) : C Unit := Comp.modify fun w => { w with stdout := w.stdout ++ s }

section

variable (m : Mem)

/-- The parameters of a call of `tojson`: `buffer`, `level`, `isarray`. -/
abbrev Call := Ptr × Int × Int

/-- `if (i>0) printf(", ");` -/
def printsep (i : Int) : C Unit := if 0 < i then print (ascii ", ") else pure ()

/-- `if (!isarray) printf("\"%s\" : ", getkey(buffer));` -/
def printkey (isarray : Int) (buffer : Ptr) : C Unit :=
  if isarray = 0 then do
    print (ascii "\"" ++ (← loadStr m (getkey buffer)) ++ ascii "\" : ")
  else pure ()

/-- `(isarray) ? "[ " : "\x7b "` -/
def opening (isarray : Int) : List UInt8 := if isarray ≠ 0 then ascii "[ " else ascii "\x7b "

def closing (isarray : Int) : List UInt8 := if isarray ≠ 0 then ascii " ]" else ascii " \x7d"

/-- `if (errorno) printf ("ERROR #%d\n", errorno);` -/
def printerror : C Unit := do
  let w ← Comp.get
  if w.errorno ≠ 0 then print (ascii "ERROR #" ++ decimal w.errorno ++ ascii "\n") else pure ()

section

variable (tojson : Call → C Unit)

/-- The `switch` of `tojson`, on the value of the element at `buffer`. -/
def printvalue (level : Int) (buffer : Ptr) : C Unit := do
  let type ← gettype m buffer
  match BsonType.ofByte type with
  | some .int32bit => print (decimal (← asint m (← getvalue m buffer)))
  | some .flop64bit => print (fixed2 (← asdouble m (← getvalue m buffer)))
  | some .boolfalsetrue =>
    print (if (← asboolean m (← getvalue m buffer)) ≠ 0 then ascii "true" else ascii "false")
  | some .symbol | some .jscode | some .utf8string =>
    print (ascii "\"" ++ (← loadStr m (asstring (← getvalue m buffer))) ++ ascii "\"")
  | some .nullvalue => print (ascii "null")
  -- a single byte: `getvalue` returns a `BYTE *`
  | some .int64bit => print (unsigned (← load m (← getvalue m buffer)).toNat)
  | some .embededdoc =>
    tojson (← opendoc m (← getvalue m buffer) 0, ← addInt level 1, 0)
  | some .array =>
    tojson (← opendoc m (← getvalue m buffer) 0, ← addInt level 1, 1)
  | _ => print (ascii " \"(0x" ++ hex (← gettype m buffer).toNat ++ ascii ") __NOTIMPLEMENTED__\"")

/-- A round of the `do … while` of `tojson`, from its two variables `i` and `buffer`. -/
def tojsonRound (level isarray : Int) : Int × Ptr → C ((Int × Ptr) ⊕ Unit)
  | (i, buffer) => do
    printsep i
    printkey m isarray buffer
    printvalue m tojson level buffer
    let i ← addInt i 1
    let buffer ← nextitem m buffer
    if (← load m buffer) ≠ 0 then return .inl (i, buffer) else return .inr ()

/-- The body of `tojson`, in terms of its recursive calls. -/
def tojsonBody : Call → C Unit
  | (buffer, level, isarray) => do
    print (opening isarray)
    let c ← load m buffer
    (if c ≠ 0 then Comp.loop (tojsonRound m tojson level isarray) (0, buffer) else pure ())
    print (closing isarray)
    printerror

end

open Comp in
theorem local_printvalue (level : Int) : Local (fun tojson => printvalue m tojson level) := by
  intro n f g hfg buffer
  refine Le.bind (Le.refl _) (fun type => ?_)
  have hcall : ∀ isarray : Int,
      Le n (getvalue m buffer >>= fun v => opendoc m v 0 >>= fun p =>
          addInt level 1 >>= fun l => f (p, l, isarray))
        (getvalue m buffer >>= fun v => opendoc m v 0 >>= fun p =>
          addInt level 1 >>= fun l => g (p, l, isarray)) :=
    fun isarray => Le.bind (Le.refl _) (fun _ => Le.bind (Le.refl _)
      (fun _ => Le.bind (Le.refl _) (fun _ => hfg _)))
  cases BsonType.ofByte type with
  | none => exact Le.refl _
  | some t =>
    cases t with
    | embededdoc => exact hcall 0
    | array => exact hcall 1
    | _ => exact Le.refl _

open Comp in
theorem local_tojsonBody : Local (tojsonBody m) := by
  intro n f g hfg call
  obtain ⟨buffer, level, isarray⟩ := call
  have hround : ∀ r, Le n (tojsonRound m f level isarray r) (tojsonRound m g level isarray r) := by
    intro r
    obtain ⟨i, buffer⟩ := r
    have hvalue := local_printvalue m level n f g hfg buffer
    exact Le.bind (Le.refl _) (fun _ => Le.bind (Le.refl _) (fun _ =>
      Le.bind hvalue (fun _ => Le.refl _)))
  refine Le.bind (Le.refl _) (fun _ => Le.bind (Le.refl _) (fun c =>
    Le.bind ?_ (fun _ => Le.refl _)))
  by_cases hc : c ≠ 0
  · rw [if_pos hc, if_pos hc]
    exact Le.loop hround _
  · rw [if_neg hc, if_neg hc]
    exact Le.refl _

/-- A call of `tojson`. -/
def Call.run : Call → C Unit := Comp.fix (tojsonBody m) (local_tojsonBody m)

def tojson (buffer : Ptr) (level isarray : Int) : C Unit := Call.run m (buffer, level, isarray)

end

/-! ## `main` -/

/-- What the program is run on: what a file has in it, and whether `malloc` gives that much. -/
structure System where
  file : List UInt8 → List UInt8
  malloc : Nat → Bool

/-- How the program ends: its exit status, and what it wrote to `stderr`. -/
structure Exit where
  status : Int
  stderr : List UInt8
  deriving DecidableEq, Repr

/-- `main`, for a file that can be read; without a `return` at its end it returns 0. -/
def main (sys : System) (program : List UInt8) : List (List UInt8) → C Exit
  | [] => return ⟨1, ascii "usage: " ++ program ++ ascii " FILE\n"⟩
  | filename :: _ => do
    let content := sys.file filename
    if sys.malloc content.length = false then
      return ⟨1, ascii "Not enough memory to open file\n"⟩
    -- the block that `malloc` gave is all that is mapped
    let m := Mem.ofObjects [content]
    let doc ← opendoc m (.addr 0 0) 0
    let w ← Comp.get
    if w.errorno ≠ 0 then
      return ⟨1, ascii "ERROR #" ++ decimal w.errorno⟩
    tojson m doc 1 0
    print (ascii "\n")
    return ⟨0, []⟩

end Binson
