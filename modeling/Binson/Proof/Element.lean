import Binson.Format.Document
import Binson.Proof.Stride

/-!
# One element

What the functions of `binson.c` come to on an element that lies in memory, whatever
surrounds it. `Value.sized` is where the three conventions for lengths meet the `switch` of
`next_element`: a value of any type is as long as its bytes say.
-/

namespace Binson

open Comp

variable {m : Mem} {b : Nat} {x : Int} {w : World}

theorem setErrorno_done (e : Int) :
    (setErrorno e).out w = some (.done () { w with errorno := e }) := out_modify _ w

theorem errorno_zero (hw : w.errorno = 0) : { w with errorno := 0 } = w := by
  cases w
  cases hw
  rfl

/-! ## The size of a value -/

/-- By its own bytes, a value of type `t` at `y` takes `size` bytes. -/
def Sized (o : Obj) (t : UInt8) (y size : Int) : Prop :=
  (lengthBase t = none ∧ fixedSize t = size) ∨
    ∃ base len, lengthBase t = some base ∧ int32At o y = some len ∧ InInt32 (base + len) ∧
      base + len = size

theorem sized_string {o : Obj} {t : UInt8} {s : List UInt8} {y : Int}
    (ht : lengthBase t = some 4) (h : Holds o y (stringBytes s))
    (hfits : (stringBytes s).length < 2 ^ 31) : Sized o t y (stringBytes s).length := by
  rw [stringBytes_length] at hfits ⊢
  exact Or.inr ⟨4, _, ht, int32At_leBytes h.left (by omega), ⟨by omega, by omega⟩, by omega⟩

theorem sized_frame {o : Obj} {t : UInt8} {body : List UInt8} {y : Int}
    (ht : lengthBase t = some 0) (h : Holds o y (frame body))
    (hfits : (frame body).length < 2 ^ 31) : Sized o t y (frame body).length := by
  rw [frame_length] at hfits ⊢
  exact Or.inr ⟨0, _, ht, int32At_leBytes h.left hfits, ⟨by omega, by omega⟩, by omega⟩

/--
**The bytes of a value say how many they are**, for every type and payload: here the three
conventions for lengths meet the `switch` of `next_element`.
-/
theorem Value.sized {o : Obj} {v : Value} {y : Int} (h : Holds o y v.payload)
    (hfits : v.payload.length < 2 ^ 31) : Sized o v.type y v.payload.length := by
  cases v with
  | double bits =>
    exact Or.inl ⟨rfl, by simp [Value.payload, Value.type, fixedSize, BsonType.ofByte_code]⟩
  | utf8string s =>
    rw [Value.payload] at h hfits ⊢
    exact sized_string rfl h hfits
  | embededdoc es =>
    rw [Value.payload] at h hfits ⊢
    exact sized_frame rfl h hfits
  | array es =>
    rw [Value.payload] at h hfits ⊢
    exact sized_frame rfl h hfits
  | binary subtype data =>
    rw [Value.payload] at h hfits ⊢
    have hlen : (leBytes 4 data.length ++ subtype :: data).length = data.length + 5 := by
      simp only [List.length_append, leBytes_length, List.length_cons]
      omega
    rw [hlen] at hfits ⊢
    exact Or.inr ⟨5, _, rfl, int32At_leBytes h.left (by omega), ⟨by omega, by omega⟩, by omega⟩
  | undefined => exact Or.inl ⟨rfl, rfl⟩
  | objectid id => exact Or.inl ⟨rfl, by simp [Value.payload, id.length_eq]; rfl⟩
  | boolean b => exact Or.inl ⟨rfl, rfl⟩
  | datetime t => exact Or.inl ⟨rfl, by simp [Value.payload]; rfl⟩
  | null => exact Or.inl ⟨rfl, rfl⟩
  | jscode s =>
    rw [Value.payload] at h hfits ⊢
    exact sized_string rfl h hfits
  | symbol s =>
    rw [Value.payload] at h hfits ⊢
    exact sized_string rfl h hfits
  | int32 i => exact Or.inl ⟨rfl, by simp [Value.payload]; rfl⟩
  | timestamp t => exact Or.inl ⟨rfl, by simp [Value.payload]; rfl⟩
  | int64 i => exact Or.inl ⟨rfl, by simp [Value.payload]; rfl⟩
  | minkey => exact Or.inl ⟨rfl, rfl⟩
  | maxkey => exact Or.inl ⟨rfl, rfl⟩

/-! ## An element in memory -/

section

variable {e : Elem}

/-- The parts of an element that lies in memory: its type, its key and its value. -/
theorem holds_item {o : Obj} {t : UInt8} {payload : List UInt8} (k : Key)
    (h : Holds o x (t :: (k.bytes ++ (0 :: payload)))) :
    o x = some t ∧ CStr o (x + 1) k.bytes ∧ Holds o (x + k.bytes.length + 2) payload := by
  obtain ⟨ht, hrest⟩ := h
  rw [← List.singleton_append, ← List.append_assoc] at hrest
  have hp := hrest.right
  rw [List.length_append, List.length_singleton] at hp
  refine ⟨ht, ⟨k.nonzero, hrest.left⟩, ?_⟩
  rwa [show x + 1 + ((k.bytes.length + 1 : Nat) : Int) = x + k.bytes.length + 2 by omega] at hp

theorem Elem.holds_key (h : Holds (m b) x e.bytes) : CStr (m b) (x + 1) e.1.bytes :=
  (holds_item e.1 h).2.1

theorem Elem.holds_payload (h : Holds (m b) x e.bytes) :
    Holds (m b) (x + e.1.bytes.length + 2) e.2.payload := (holds_item e.1 h).2.2

theorem gettype_done (h : Holds (m b) x e.bytes) :
    (gettype m (.addr b x)).out w = some (.done e.2.type w) := load_done h.1

/-- By its bytes, an element whose value takes as many as it says is followed by what is behind. -/
theorem Sized.next {o : Obj} {t : UInt8} {k : List UInt8} {size : Int} (ht : o x = some t)
    (hk : CStr o (x + 1) k) (h : Sized o t (x + k.length + 2) size) :
    Next o x (x + (k.length + 2 + size)) := by
  have hstart : x + (k.length : Int) + 2 = x + 1 + k.length + 1 := by omega
  rw [hstart] at h
  rw [show x + ((k.length : Int) + 2 + size) = x + 1 + k.length + 1 + size by omega]
  rcases h with ⟨hbase, rfl⟩ | ⟨base, len, hbase, hat, hint, rfl⟩
  · exact Next.fixed ht hk hbase
  · exact Next.counted ht hk hbase hat hint

theorem Elem.next (h : Holds (m b) x e.bytes) (hfits : e.2.payload.length < 2 ^ 31) :
    Next (m b) x (x + e.bytes.length) := by
  have hnext := Sized.next h.1 (Elem.holds_key h) (Value.sized (Elem.holds_payload h) hfits)
  rwa [show x + ((e.1.bytes.length : Int) + 2 + e.2.payload.length) = x + e.bytes.length by
    rw [e.bytes_length]; omega] at hnext

/-- `nextitem` steps over the element. -/
theorem nextitem_done (h : Holds (m b) x e.bytes) (hfits : e.2.payload.length < 2 ^ 31) :
    (nextitem m (.addr b x)).out w = some (.done (.addr b (x + e.bytes.length)) w) :=
  (Elem.next h hfits).nextitem

/-- `getvalue` points at the payload. -/
theorem getvalue_done (h : Holds (m b) x e.bytes) :
    (getvalue m (.addr b x)).out w = some (.done (.addr b (x + e.1.bytes.length + 2)) w) := by
  rw [getvalue, out_bind_done (gettype_done h), if_neg e.2.type_ne_zero, Ptr.add_addr,
    skipStr_done (Elem.holds_key h)]
  congr 3
  omega

end

/-! ## A container in memory -/

/-- A document or an array is at `x`. -/
def ContainerAt (o : Obj) (x : Int) : Prop :=
  o x = some BsonType.array.code ∨ o x = some BsonType.embededdoc.code

section

variable {k : List UInt8} (h : ContainerAt (m b) x)

include h

theorem ContainerAt.gettype :
    ∃ t, (Binson.gettype m (.addr b x)).out w = some (.done t w) ∧
      (t = BsonType.array.code ∨ t = BsonType.embededdoc.code) := by
  rcases h with ht | ht
  · exact ⟨_, load_done ht, Or.inl rfl⟩
  · exact ⟨_, load_done ht, Or.inr rfl⟩

theorem ContainerAt.getvalue (hk : CStr (m b) (x + 1) k) :
    (Binson.getvalue m (.addr b x)).out w =
      some (.done (.addr b (x + 1 + k.length + 1)) w) := by
  obtain ⟨t, ht, htype⟩ := h.gettype (w := w)
  have ht0 : t ≠ 0 := by rcases htype with rfl | rfl <;> decide
  rw [Binson.getvalue, out_bind_done ht, if_neg ht0, Ptr.add_addr, skipStr_done hk]

/-- `lookuppath` goes on from a container with what opening it delivers. -/
theorem ContainerAt.descend (hk : CStr (m b) (x + 1) k) :
    (Binson.descend m (.addr b x)).out w =
      (opendoc m (.addr b (x + 1 + k.length + 1)) 0).out w := by
  obtain ⟨t, ht, htype⟩ := h.gettype (w := w)
  rw [Binson.descend, out_bind_done ht, if_pos htype, out_bind_done (h.getvalue hk)]

end

/-- With the length left to the bytes, `opendoc` looks at the last one they declare. -/
theorem opendoc_declared {len : Int} (hlen : int32At (m b) x = some len)
    (hint : InInt32 (len - 1)) (w : World) :
    (opendoc m (.addr b x) 0).out w = (load m (.addr b (x + (len - 1))) >>= fun c =>
      if c ≠ 0 then setErrorno ERR_BADSIZEORENDING >>= fun _ => pure .null
      else pure (.addr b (x + 4))).out { w with errorno := 0 } := by
  rw [opendoc, out_bind_done (setErrorno_done 0), if_pos rfl, getdoclen,
    out_bind_done (loadInt32_at hlen), out_bind_done (subInt_done hint)]
  rfl

/-- A container is opened. -/
theorem opendoc_done {body : List UInt8} (h : Holds (m b) x (frame body))
    (hfits : (frame body).length < 2 ^ 31) :
    (opendoc m (.addr b x) 0).out w = some (.done (.addr b (x + 4)) { w with errorno := 0 }) := by
  rw [frame_length] at hfits
  have hlast := h.right.right
  rw [leBytes_length] at hlast
  have hend : m b (x + ((body.length + 5 : Nat) - 1 : Int)) = some 0 := by
    rw [← hlast.1]
    congr 1
    omega
  rw [opendoc_declared (int32At_leBytes h.left hfits) ⟨by omega, by omega⟩,
    out_bind_done (load_done hend), if_neg (by simp)]
  exact out_pure _ _

end Binson
