import Binson.Model.ToJson

/-!
# The calls of `tojson`

A run of `tojson` is a tree of calls. `Comes` are the calls that one comes to, `AtElement`
where the loop of a call is, and `Entered` how it gets from an element to the call for it;
what goes wrong at any place of the tree goes wrong with the whole (`Comes.fault`).
-/

namespace Binson

open Comp Printf

variable {m : Mem} {b : Nat} {x : Int} {w : World}

/-! ## What is printed -/

/-- The state after more text was printed. -/
def World.printed (w : World) (s : List UInt8) : World := { w with stdout := w.stdout ++ s }

theorem print_done (s : List UInt8) : (print s).out w = some (.done () (w.printed s)) :=
  out_modify _ w

@[simp] theorem World.printed_nil (w : World) : w.printed [] = w := by
  unfold printed
  rw [List.append_nil]

@[simp] theorem World.printed_printed (w : World) (s t : List UInt8) :
    (w.printed s).printed t = w.printed (s ++ t) := by
  unfold printed
  rw [List.append_assoc]

theorem printsep_done (i : Int) :
    (printsep i).out w = some (.done () (w.printed (if 0 < i then ascii ", " else []))) := by
  unfold printsep
  by_cases hi : 0 < i
  · rw [if_pos hi, if_pos hi]
    exact print_done _
  · rw [if_neg hi, if_neg hi, World.printed_nil]
    exact out_pure _ w

theorem printkey_done {k : List UInt8} (isarray : Int) (h : CStr (m b) (x + 1) k) :
    (printkey m isarray (.addr b x)).out w = some (.done () (w.printed
      (if isarray = 0 then ascii "\"" ++ k ++ ascii "\" : " else []))) := by
  unfold printkey
  by_cases ha : isarray = 0
  · rw [if_pos ha, if_pos ha, getkey, Ptr.add_addr, out_bind_done (loadStr_done h)]
    exact print_done _
  · rw [if_neg ha, if_neg ha, World.printed_nil]
    exact out_pure _ w

/-! ## Calls -/

/-- A call does what its body does, its recursive calls being calls. -/
theorem call_out (c : Call) : (c.run m).out w = (tojsonBody m (Call.run m) c).out w :=
  fix_out _ _ c w

/-- The `do … while` of a call, begun in `w`, is at the element at `buffer`, in `w'`. -/
def AtElement (m : Mem) (c : Call) (w : World) (i : Int) (buffer : Ptr) (w' : World) : Prop :=
  ∃ t, (∀ w : World, (load m c.1).out w = some (.done t w)) ∧ t ≠ 0 ∧
    Reaches (tojsonRound m (Call.run m) c.2.1 c.2.2) (0, c.1) (w.printed (opening c.2.2))
      (i, buffer) w'

/-- What goes wrong with an element goes wrong with the call. -/
theorem AtElement.fault {c : Call} {i : Int} {buffer : Ptr} {w' : World} {e : Fault}
    (h : AtElement m c w i buffer w')
    (hround : (tojsonRound m (Call.run m) c.2.1 c.2.2 (i, buffer)).out w' = some (.fault e)) :
    (c.run m).out w = some (.fault e) := by
  obtain ⟨t, ht, hne, hreach⟩ := h
  obtain ⟨p, level, isarray⟩ := c
  have hloop : (loop (tojsonRound m (Call.run m) level isarray) (0, p)).out
      (w.printed (opening isarray)) = some (.fault e) := by
    rw [hreach.out_eq]
    exact loop_fault hround
  rw [call_out, tojsonBody, out_bind_done (print_done _), out_bind_done (ht _), if_pos hne]
  exact out_bind_fault hloop

/-- The element at `buffer` is a container, and what `opendoc` returns for it is `p`, in `w'`. -/
def Entered (m : Mem) (isarray i : Int) (buffer : Ptr) (w : World) (p : Ptr) (kind : Int)
    (w' : World) : Prop :=
  ∃ w₁ w₂ w₃ t v, (printsep i).out w = some (.done () w₁) ∧
    (printkey m isarray buffer).out w₁ = some (.done () w₂) ∧
    (gettype m buffer).out w₂ = some (.done t w₂) ∧
    (t = BsonType.array.code ∧ kind = 1 ∨ t = BsonType.embededdoc.code ∧ kind = 0) ∧
    (getvalue m buffer).out w₂ = some (.done v w₃) ∧ (opendoc m v 0).out w₃ = some (.done p w')

/-- A round on a container comes to the recursive call for it, and then goes on. -/
theorem Entered.round {level isarray i kind : Int} {buffer p : Ptr} {w' : World} {e : Fault}
    (h : Entered m isarray i buffer w p kind w')
    (hcall : (addInt level 1 >>= fun l => Call.run m (p, l, kind)).out w' = some (.fault e)) :
    (tojsonRound m (Call.run m) level isarray (i, buffer)).out w = some (.fault e) := by
  obtain ⟨w₁, w₂, w₃, t, v, hsep, hkey, htype, hkind, hv, ho⟩ := h
  have hvalue : (printvalue m (Call.run m) level buffer).out w₂ = some (.fault e) := by
    rw [printvalue, out_bind_done htype]
    rcases hkind with ⟨rfl, rfl⟩ | ⟨rfl, rfl⟩
    · rw [BsonType.ofByte_code]
      dsimp only
      rw [out_bind_done hv, out_bind_done ho, hcall]
    · rw [BsonType.ofByte_code]
      dsimp only
      rw [out_bind_done hv, out_bind_done ho, hcall]
  rw [tojsonRound, out_bind_done hsep, out_bind_done hkey]
  exact out_bind_fault hvalue

/-- The calls that a call of `tojson` comes to, itself included. -/
inductive Comes (m : Mem) (c : Call) (w : World) : Call → World → Prop where
  | start : Comes m c w c w
  | enter {c' : Call} {i kind : Int} {buffer p : Ptr} {w₁ w₂ w₃ : World} :
      Comes m c w c' w₁ → AtElement m c' w₁ i buffer w₂ →
      Entered m c'.2.2 i buffer w₂ p kind w₃ → InInt32 (c'.2.1 + 1) →
      Comes m c w (p, c'.2.1 + 1, kind) w₃

/-- What goes wrong in a call goes wrong in the one it comes from. -/
theorem Comes.fault {c c' : Call} {w' : World} {e : Fault} (h : Comes m c w c' w')
    (hout : (c'.run m).out w' = some (.fault e)) : (c.run m).out w = some (.fault e) := by
  induction h with
  | start => exact hout
  | enter _ hat hent hint ih =>
    refine ih (hat.fault (hent.round ?_))
    rw [out_bind_done (addInt_done hint), hout]

theorem call_null (level isarray : Int) :
    (Call.run m (.null, level, isarray)).out w = some (.fault .null) := by
  rw [call_out, tojsonBody, out_bind_done (print_done _)]
  exact out_bind_fault load_null

end Binson
