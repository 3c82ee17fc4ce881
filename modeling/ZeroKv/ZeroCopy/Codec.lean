/-
# ZeroKv.ZeroCopy.Codec — the derived codec of a plain record.

`derive(ZeroCopy)` accepts a struct if the sum of the sizes of its fields is its size, and then moves whole
structs around as bytes: `encode` copies the object into a slice, `decode` copies a slice into a fresh object,
`view` reads a slice in place.  None of the three looks at a field.  What the bytes of an object are is up to
the compiler: the fields stand at their `repr(C)` offsets, and the padding between them may hold anything.

The guard compares two totals.  That no field is preceded or followed by padding is `Slot.Tight`; with it the
object is the concatenation of its fields, and the rest is about lists.
-/
import Mathlib.Data.UInt
import ZeroKv.Lib.File
import ZeroKv.Lib.Layout
import ZeroKv.Lib.Word

namespace ZeroKv.ZeroCopy

/-! ## Plain old data -/

/-- The primitive types that implement `Pod`. -/
inductive Prim
  | u8 | u16 | u32 | u64 | u128 | usize
  | i8 | i16 | i32 | i64 | i128 | isize
  | f32 | f64
  deriving DecidableEq

def Prim.size : Prim → ℕ
  | .u8 | .i8 => 1
  | .u16 | .i16 => 2
  | .u32 | .i32 | .f32 => 4
  | .u64 | .i64 | .f64 | .usize | .isize => 8
  | .u128 | .i128 => 16

/-- What differs between 64-bit targets: the alignments and the order of bytes. -/
structure Target where
  align : Prim → ℕ
  align_pos : ∀ p, 0 < align p
  bigEndian : Bool

/-- The types that implement `Pod`. -/
inductive Pod
  | prim (p : Prim)
  | array (elem : Pod) (n : ℕ)

/-- `size_of`. -/
def Pod.size : Pod → ℕ
  | .prim p => p.size
  | .array elem n => n * elem.size

/-- A value is its bits. -/
def Pod.Val : Pod → Type
  | .prim p => BitVec (8 * p.size)
  | .array elem n => Fin n → elem.Val

namespace Target

variable (T : Target)

/-- Between the order of the target and the lowest byte first. -/
def order (bytes : List UInt8) : List UInt8 := if T.bigEndian then bytes.reverse else bytes

/-- `align_of`. -/
def alignOf : Pod → ℕ
  | .prim p => T.align p
  | .array elem _ => alignOf elem

/-- The bytes of a value in memory. -/
def bytes : (t : Pod) → t.Val → List UInt8
  | .prim p, v => T.order (toLeBytes p.size (BitVec.toNat v))
  | .array elem _, v => (List.ofFn fun i => bytes elem (v i)).flatten

/-- The value of bytes in memory. -/
def ofBytes : (t : Pod) → List UInt8 → t.Val
  | .prim p, l => BitVec.ofNat (8 * p.size) (ofLeBytes (T.order l))
  | .array elem _, l => fun i => ofBytes elem ((l.drop (i * elem.size)).take elem.size)

@[simp] theorem length_order (l : List UInt8) : (T.order l).length = l.length := by
  unfold order
  split
  · exact List.length_reverse
  · rfl

@[simp] theorem order_order (l : List UInt8) : T.order (T.order l) = l := by
  cases h : T.bigEndian <;> simp [order, h]

theorem alignOf_pos (t : Pod) : 0 < T.alignOf t := by
  induction t with
  | prim p => exact T.align_pos p
  | array elem n ih => exact ih

@[simp] theorem length_bytes (t : Pod) (v : t.Val) : (T.bytes t v).length = t.size := by
  induction t with
  | prim p => rw [bytes, length_order, length_toLeBytes, Pod.size]
  | array elem n ih => simp [bytes, Pod.size, List.length_flatten, List.map_ofFn, Function.comp_def, ih]

theorem ofBytes_bytes (t : Pod) (v : t.Val) : T.ofBytes t (T.bytes t v) = v := by
  induction t with
  | prim p =>
      have hlt : BitVec.toNat v < 256 ^ p.size := by
        have := BitVec.isLt v
        rwa [Nat.pow_mul] at this
      rw [bytes, ofBytes, order_order, ofLeBytes_toLeBytes hlt]
      exact (BitVec.ofNat_toNat _ _).trans (BitVec.setWidth_eq _)
  | array elem n ih =>
      refine funext fun i => ?_
      have hpart := part_flatten_ofFn (fun i => T.length_bytes elem (v i)) i
      exact (congrArg (T.ofBytes elem) hpart).trans (ih (v i))

theorem bytes_ofBytes (t : Pod) {l : List UInt8} (h : l.length = t.size) :
    T.bytes t (T.ofBytes t l) = l := by
  induction t generalizing l with
  | prim p =>
      have hlen : (T.order l).length = p.size := (T.length_order l).trans h
      have hlt : ofLeBytes (T.order l) < 2 ^ (8 * p.size) := by
        have := ofLeBytes_lt (T.order l)
        rwa [hlen, show 256 = 2 ^ 8 from rfl, ← Nat.pow_mul] at this
      show T.order (toLeBytes p.size (BitVec.ofNat (8 * p.size) (ofLeBytes (T.order l))).toNat) = l
      rw [BitVec.toNat_ofNat, Nat.mod_eq_of_lt hlt, ← hlen, toLeBytes_ofLeBytes, order_order]
  | array elem n ih =>
      have hsize : l.length = n * elem.size := h
      have hparts : (fun i : Fin n => T.bytes elem (T.ofBytes (.array elem n) l i)) =
          fun i : Fin n => (l.drop (i * elem.size)).take elem.size := by
        refine funext fun i => ih ?_
        have hend : (i + 1) * elem.size ≤ n * elem.size := Nat.mul_le_mul_right _ i.isLt
        rw [Nat.succ_mul] at hend
        rw [List.length_take, List.length_drop]
        omega
      exact (congrArg (fun f => (List.ofFn f).flatten) hparts).trans (flatten_parts hsize)

end Target

/-! ## Records -/

/-- The values of the fields of a struct. -/
def Fields : List Pod → Type
  | [] => Unit
  | t :: ts => t.Val × Fields ts

section Codec

variable (T : Target)

def slot (t : Pod) : Slot := ⟨t.size, T.alignOf t, T.alignOf_pos t⟩

/-- `size_of` of the struct, and `SERIALIZED_SIZE`. -/
def serializedSize (ts : List Pod) : ℕ := Slot.wholeSize (ts.map (slot T))

/-- `align_of` of the struct. -/
def structAlign (ts : List Pod) : ℕ := Slot.maxAlign (ts.map (slot T))

/-- The padding guard: `size_of` of the struct is the sum of those of the fields. -/
def Guard (ts : List Pod) : Prop := serializedSize T ts = (ts.map Pod.size).sum

instance (ts : List Pod) : Decidable (Guard T ts) := inferInstanceAs (Decidable (_ = _))

/-- The bytes of the fields, one after the other. -/
def fieldBytes : (ts : List Pod) → Fields ts → List UInt8
  | [], _ => []
  | t :: ts, x => T.bytes t x.1 ++ fieldBytes ts x.2

/-- Write the fields of an object, each at its offset. -/
def store : ℕ → (ts : List Pod) → Fields ts → List UInt8 → List UInt8
  | _, [], _, object => object
  | run, t :: ts, x, object =>
      let off := roundUp run (T.alignOf t)
      store (off + t.size) ts x.2 (pwrite object off (T.bytes t x.1))

/-- Read the fields of an object, each at its offset. -/
def load : ℕ → (ts : List Pod) → List UInt8 → Fields ts
  | _, [], _ => ()
  | run, t :: ts, object =>
      let off := roundUp run (T.alignOf t)
      (T.ofBytes t ((object.drop off).take t.size), load (off + t.size) ts object)

/-- The object of a value; `pad` is what the padding happens to hold. -/
def object (ts : List Pod) (x : Fields ts) (pad : ℕ → UInt8) : List UInt8 :=
  store T 0 ts x ((List.range (serializedSize T ts)).map pad)

/-- `encode`: the slice afterwards.  An error is a panic. -/
def encode (ts : List Pod) (x : Fields ts) (pad : ℕ → UInt8) (dst : List UInt8) :
    Except String (List UInt8) :=
  if serializedSize T ts ≤ dst.length then .ok (pwrite dst 0 (object T ts x pad))
  else .error "encode: dst too small"

/-- `decode`: the fresh object is the beginning of the slice. -/
def decode (ts : List Pod) (src : List UInt8) : Except String (Fields ts) :=
  if serializedSize T ts ≤ src.length then .ok (load T 0 ts (src.take (serializedSize T ts)))
  else .error "decode: src too small"

/-- `view` of the slice at `ptr`: what the reference denotes is read in place. -/
def view (ts : List Pod) (ptr : ℕ) (src : List UInt8) : Option (Fields ts) :=
  if src.length < serializedSize T ts then none
  else if ptr % structAlign T ts ≠ 0 then none
  else some (load T 0 ts src)

/-! ## Without padding -/

theorem total_slots (ts : List Pod) : Slot.total (ts.map (slot T)) = (ts.map Pod.size).sum := by
  simp only [Slot.total, List.map_map]
  rfl

theorem Guard.tight {ts : List Pod} (h : Guard T ts) : Slot.Tight 0 (ts.map (slot T)) :=
  Slot.tight_of_wholeSize (h.trans (total_slots T ts).symm)

variable {T}

@[simp] theorem length_fieldBytes (ts : List Pod) (x : Fields ts) :
    (fieldBytes T ts x).length = (ts.map Pod.size).sum := by
  induction ts with
  | nil => rfl
  | cons t ts ih => simp [fieldBytes, ih]

theorem store_tight {run : ℕ} {ts : List Pod} (h : Slot.Tight run (ts.map (slot T))) (x : Fields ts)
    (object : List UInt8) : store T run ts x object = pwrite object run (fieldBytes T ts x) := by
  induction ts generalizing run object with
  | nil => exact (pwrite_nil object run).symm
  | cons t ts ih =>
      obtain ⟨hrun, hrest⟩ := h.cons
      have hoff : roundUp run (T.alignOf t) = run := hrun
      have happend := pwrite_append object run (T.bytes t x.1) (fieldBytes T ts x.2)
      rw [T.length_bytes] at happend
      unfold store fieldBytes
      rw [hoff]
      exact (ih hrest x.2 _).trans happend

theorem load_cons {run : ℕ} {t : Pod} {ts : List Pod} (hoff : roundUp run (T.alignOf t) = run)
    (object : List UInt8) :
    load T run (t :: ts) object =
      ((T.ofBytes t ((object.drop run).take t.size), load T (run + t.size) ts object) :
        t.Val × Fields ts) := by
  show ((T.ofBytes t ((object.drop (roundUp run (T.alignOf t))).take t.size),
    load T (roundUp run (T.alignOf t) + t.size) ts object) : t.Val × Fields ts) = _
  rw [hoff]

/-- An object without padding is read off the bytes of its fields. -/
theorem load_tight {run : ℕ} {ts : List Pod} (h : Slot.Tight run (ts.map (slot T))) {x : Fields ts}
    {object : List UInt8}
    (hbytes : (object.drop run).take (ts.map Pod.size).sum = fieldBytes T ts x) :
    load T run ts object = x := by
  induction ts generalizing run with
  | nil => rfl
  | cons t ts ih =>
      obtain ⟨hrun, hrest⟩ := h.cons
      have hoff : roundUp run (T.alignOf t) = run := hrun
      rw [List.map_cons, List.sum_cons, List.take_add, List.drop_drop, fieldBytes] at hbytes
      have hlen : ((object.drop run).take t.size).length = (T.bytes t x.1).length := by
        have hboth := congrArg List.length hbytes
        simp only [List.length_append, List.length_take, List.length_drop, Target.length_bytes,
          length_fieldBytes] at hboth ⊢
        omega
      obtain ⟨hfirst, hothers⟩ := List.append_inj hbytes hlen
      have hval : T.ofBytes t ((object.drop run).take t.size) = x.1 :=
        (congrArg (T.ofBytes t) hfirst).trans (T.ofBytes_bytes t x.1)
      exact (load_cons hoff object).trans (Prod.ext hval (ih hrest hothers))

theorem fieldBytes_load {run : ℕ} {ts : List Pod} (h : Slot.Tight run (ts.map (slot T)))
    {object : List UInt8} (hlen : run + (ts.map Pod.size).sum ≤ object.length) :
    fieldBytes T ts (load T run ts object) = (object.drop run).take (ts.map Pod.size).sum := by
  induction ts generalizing run with
  | nil => rfl
  | cons t ts ih =>
      obtain ⟨hrun, hrest⟩ := h.cons
      have hoff : roundUp run (T.alignOf t) = run := hrun
      rw [List.map_cons, List.sum_cons] at hlen ⊢
      have hfirst : ((object.drop run).take t.size).length = t.size := by
        rw [List.length_take, List.length_drop]
        omega
      rw [List.take_add, List.drop_drop]
      refine (congrArg (fieldBytes T (t :: ts)) (load_cons hoff object)).trans ?_
      exact congrArg₂ (· ++ ·) (T.bytes_ofBytes t hfirst) (ih hrest (by omega))

section Guarded

variable {ts : List Pod}

/-- The object of a value is the concatenation of its fields, whatever the padding would have held. -/
theorem object_eq (h : Guard T ts) (x : Fields ts) (pad : ℕ → UInt8) :
    object T ts x pad = fieldBytes T ts x := by
  have hall : (List.range (serializedSize T ts)).length = (fieldBytes T ts x).length := by
    rw [List.length_range, length_fieldBytes]
    exact h
  rw [object, store_tight (h.tight T), pwrite_zero, ← hall, List.drop_of_length_le (by simp),
    List.append_nil]

theorem encode_eq (h : Guard T ts) (x : Fields ts) (pad : ℕ → UInt8) {dst : List UInt8}
    (hdst : serializedSize T ts ≤ dst.length) :
    encode T ts x pad dst = .ok (fieldBytes T ts x ++ dst.drop (serializedSize T ts)) := by
  rw [encode, if_pos hdst, object_eq h, pwrite_zero, length_fieldBytes, ← h]

theorem take_fieldBytes (h : Guard T ts) (x : Fields ts) (rest : List UInt8) :
    (fieldBytes T ts x ++ rest).take (serializedSize T ts) = fieldBytes T ts x := by
  rw [h, ← length_fieldBytes (T := T) ts x, List.take_left]

/-- The fields of a slice are those of its beginning. -/
theorem load_take (h : Guard T ts) {src : List UInt8} (hsrc : serializedSize T ts ≤ src.length) :
    load T 0 ts src = load T 0 ts (src.take (serializedSize T ts)) := by
  have hlen : (src.take (serializedSize T ts)).length = (ts.map Pod.size).sum := by
    rw [List.length_take_of_le hsrc, h]
  refine load_tight (h.tight T) ?_
  rw [fieldBytes_load (h.tight T) (by omega), List.drop_zero, List.drop_zero, ← h, List.take_take,
    min_self]

theorem fieldBytes_decode (h : Guard T ts) {src : List UInt8}
    (hsrc : serializedSize T ts ≤ src.length) :
    fieldBytes T ts (load T 0 ts src) = src.take (serializedSize T ts) := by
  have hguard : serializedSize T ts = (ts.map Pod.size).sum := h
  rw [fieldBytes_load (h.tight T) (by omega), List.drop_zero, hguard]

end Guarded

end Codec

/-- Whenever the padding guard accepts a struct: each field stands at the sum of the sizes of the fields in
front of it; `encode` writes the bytes of the fields one after the other to the first `SERIALIZED_SIZE` bytes
of the slice and leaves the rest alone; `decode` gives back what was encoded; `encode` gives back the bytes
that were decoded; and what `view` shows is what `decode` gives. -/
theorem codec_exact (T : Target) (ts : List Pod) (h : Guard T ts) :
    (∀ i < ts.length, (Slot.offsets 0 (ts.map (slot T)))[i]? = some ((ts.take i).map Pod.size).sum) ∧
      (∀ x pad dst, serializedSize T ts ≤ dst.length →
        (fieldBytes T ts x).length = serializedSize T ts ∧
          encode T ts x pad dst = .ok (fieldBytes T ts x ++ dst.drop (serializedSize T ts))) ∧
      (∀ x pad dst b, encode T ts x pad dst = .ok b → decode T ts b = .ok x) ∧
      (∀ b, serializedSize T ts ≤ b.length → ∃ x, decode T ts b = .ok x ∧
        ∀ pad dst, serializedSize T ts ≤ dst.length →
          encode T ts x pad dst = .ok (b.take (serializedSize T ts) ++
            dst.drop (serializedSize T ts))) ∧
      ∀ ptr b x, view T ts ptr b = some x → decode T ts b = .ok x := by
  refine ⟨?_, ?_, ?_, ?_, ?_⟩
  · intro i hi
    have hoff := (h.tight T).offsets (i := i) (by rwa [List.length_map])
    rwa [Nat.zero_add, ← List.map_take, total_slots] at hoff
  · intro x pad dst hdst
    exact ⟨(length_fieldBytes ts x).trans h.symm, encode_eq h x pad hdst⟩
  · intro x pad dst b hb
    have hdst : serializedSize T ts ≤ dst.length := by
      by_contra hshort
      rw [encode, if_neg hshort] at hb
      cases hb
    rw [encode_eq h x pad hdst] at hb
    cases hb
    -- what was written is long enough to be decoded
    have hsrc : serializedSize T ts ≤
        (fieldBytes T ts x ++ dst.drop (serializedSize T ts)).length := by
      rw [List.length_append, length_fieldBytes, ← h]
      exact Nat.le_add_right _ _
    rw [decode, if_pos hsrc, take_fieldBytes h]
    refine congrArg Except.ok (load_tight (h.tight T) ?_)
    rw [List.drop_zero, ← length_fieldBytes (T := T) ts x, List.take_length]
  · intro b hb
    refine ⟨_, if_pos hb, fun pad dst hdst => ?_⟩
    rw [encode_eq h _ pad hdst, ← load_take h hb, fieldBytes_decode h hb]
  · intro ptr b x hview
    unfold view at hview
    split at hview
    case isTrue => cases hview
    case isFalse hshort =>
      split at hview
      case isTrue => cases hview
      case isFalse =>
        have hb : serializedSize T ts ≤ b.length := Nat.not_lt.mp hshort
        rw [decode, if_pos hb, ← load_take h hb]
        exact congrArg Except.ok (Option.some.inj hview)

/-- A target on which every primitive type is aligned to its size. -/
def natural : Target := ⟨Prim.size, by rintro (_ | _) <;> decide, false⟩

/-- The fields of a struct with two words and two half words. -/
def trade : List Pod := [.prim .u64, .prim .u64, .prim .u32, .prim .u32]

theorem codec_exact_trade : Guard natural trade ∧ ∃ x, decode natural trade (List.replicate 24 7) = .ok x ∧
    ∀ pad dst, 24 ≤ dst.length →
      encode natural trade x pad dst = .ok (List.replicate 24 7 ++ dst.drop 24) := by
  have hguard : Guard natural trade := by decide
  exact ⟨hguard, (codec_exact natural trade hguard).2.2.2.1 (List.replicate 24 7) (by decide)⟩

-- a field that is not aligned where it would stand, and an empty array that needs an alignment
example : ¬ Guard natural [.prim .u8, .prim .u32] := by decide
example : ¬ Guard natural [.prim .u8, .array (.prim .u32) 0] := by decide

end ZeroKv.ZeroCopy
