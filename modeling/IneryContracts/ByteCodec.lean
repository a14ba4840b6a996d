import Mathlib.Algebra.Order.Ring.Nat
import Mathlib.Logic.Basic

/-!
# Byte codecs

A codec writes a value as bytes and reads it back from the front of a longer
sequence of bytes.  It need not do so for all of its type: `Fits` tells which
values survive.  Records are written field by field, and read back by reading
their fields in the same order.
-/

namespace ByteCodec

variable {α β : Type}

/-- Writing and reading the values of a type. -/
structure Codec (α : Type) where
  encode : α → List UInt8
  decode : List UInt8 → Option (α × List UInt8)
  /-- The values that are read back as they were written. -/
  Fits : α → Prop
  round_trip : ∀ a rest, Fits a → decode (encode a ++ rest) = some (a, rest)

namespace Codec

/-- A value that fits is read, and what follows it is left. -/
@[simp] theorem decode_encode (c : Codec α) {a : α} (ha : c.Fits a)
    (rest : List UInt8) : c.decode (c.encode a ++ rest) = some (a, rest) :=
  c.round_trip a rest ha

/-! ## Numbers -/

/-- The lowest `width` bytes of a number, the lowest first. -/
def lowBytes : ℕ → ℕ → List UInt8
  | 0, _ => []
  | width + 1, n => UInt8.ofNat n :: lowBytes width (n / 256)

/-- Read a number of `width` bytes. -/
def readNat : ℕ → List UInt8 → Option (ℕ × List UInt8)
  | 0, bytes => some (0, bytes)
  | _ + 1, [] => none
  | width + 1, b :: bytes =>
      (readNat width bytes).map (fun r => (b.toNat + 256 * r.1, r.2))

/-- A number is written in the bytes it is given. -/
theorem length_lowBytes (width n : ℕ) : (lowBytes width n).length = width := by
  induction width generalizing n with
  | zero => rfl
  | succ width ih => rw [lowBytes, List.length_cons, ih]

/-- A number that fits its bytes is read back. -/
theorem readNat_lowBytes {width n : ℕ} (h : n < 256 ^ width)
    (rest : List UInt8) : readNat width (lowBytes width n ++ rest) =
      some (n, rest) := by
  induction width generalizing n with
  | zero =>
      rw [pow_zero, Nat.lt_one_iff] at h
      subst h
      rfl
  | succ width ih =>
      have hhigh : n / 256 < 256 ^ width := by
        rw [Nat.div_lt_iff_lt_mul (by decide), ← pow_succ]
        exact h
      rw [lowBytes, List.cons_append, readNat, ih hhigh, Option.map_some]
      simp only [UInt8.toNat_ofNat']
      rw [Nat.mod_add_div]

/-- What is read has been written. -/
theorem lowBytes_of_readNat {width n : ℕ} {bytes rest : List UInt8}
    (h : readNat width bytes = some (n, rest)) :
    n < 256 ^ width ∧ bytes = lowBytes width n ++ rest := by
  induction width generalizing n bytes with
  | zero =>
      cases h
      exact ⟨Nat.one_pos, rfl⟩
  | succ width ih =>
      cases bytes with
      | nil => cases h
      | cons b bytes =>
          obtain ⟨⟨high, left⟩, hread, heq⟩ := Option.map_eq_some_iff.mp h
          cases heq
          obtain ⟨hlt, rfl⟩ := ih hread
          have hb := b.toNat_lt
          have hdiv : (b.toNat + 256 * high) / 256 = high := by omega
          have hbyte : UInt8.ofNat (b.toNat + 256 * high) = b := by
            refine UInt8.toNat_inj.mp ?_
            rw [UInt8.toNat_ofNat']
            omega
          refine ⟨?_, ?_⟩
          · rw [pow_succ]
            omega
          · rw [lowBytes, hdiv, hbyte, List.cons_append]

/-- Natural numbers in `width` bytes. -/
def nat (width : ℕ) : Codec ℕ where
  encode := lowBytes width
  decode := readNat width
  Fits n := n < 256 ^ width
  round_trip _ rest h := readNat_lowBytes h rest

/-- A number below the power of its width fits. -/
theorem nat_fits {width n : ℕ} (h : n < 256 ^ width) : (nat width).Fits n := h

/-! ## Composite values -/

/-- A codec for what another codec's values stand for. -/
def via (c : Codec β) (f : α → β) (g : β → α) : Codec α where
  encode a := c.encode (f a)
  decode bytes := (c.decode bytes).map (fun r => (g r.1, r.2))
  Fits a := c.Fits (f a) ∧ g (f a) = a
  round_trip a rest h := by
    rw [c.decode_encode h.1, Option.map_some, h.2]

/-- A value fits if what stands for it does and leads back. -/
theorem via_fits {c : Codec β} {f : α → β} {g : β → α} {a : α}
    (h : c.Fits (f a)) (hback : g (f a) = a) : (c.via f g).Fits a := ⟨h, hback⟩

/-- One value after the other. -/
def pair (c : Codec α) (d : Codec β) : Codec (α × β) where
  encode p := c.encode p.1 ++ d.encode p.2
  decode bytes := do
    let (a, bytes) ← c.decode bytes
    let (b, bytes) ← d.decode bytes
    return ((a, b), bytes)
  Fits p := c.Fits p.1 ∧ d.Fits p.2
  round_trip p rest h := by
    rw [List.append_assoc, c.decode_encode h.1]
    simp [d.decode_encode h.2]

/-- A pair fits if both of its parts do. -/
theorem pair_fits {c : Codec α} {d : Codec β} {a : α} {b : β} (ha : c.Fits a)
    (hb : d.Fits b) : (c.pair d).Fits (a, b) := ⟨ha, hb⟩

/-- Read `count` values. -/
def readMany (c : Codec α) : ℕ → List UInt8 → Option (List α × List UInt8)
  | 0, bytes => some ([], bytes)
  | count + 1, bytes => do
      let (a, bytes) ← c.decode bytes
      let (l, bytes) ← readMany c count bytes
      return (a :: l, bytes)

/-- As many values are read back as have been written. -/
theorem readMany_encode (c : Codec α) {l : List α} (h : ∀ a ∈ l, c.Fits a)
    (rest : List UInt8) :
    c.readMany l.length (l.flatMap c.encode ++ rest) = some (l, rest) := by
  induction l with
  | nil => rfl
  | cons a l ih =>
      have ha := h a List.mem_cons_self
      have hl := ih fun b hb => h b (List.mem_cons_of_mem _ hb)
      rw [List.length_cons, List.flatMap_cons, List.append_assoc, readMany,
        c.decode_encode ha]
      simp [hl]

/-- A list behind the number of its values, which is less than 128 and takes
one byte. -/
def shortList (c : Codec α) : Codec (List α) where
  encode l := (nat 1).encode l.length ++ l.flatMap c.encode
  decode bytes := do
    let (count, bytes) ← (nat 1).decode bytes
    c.readMany count bytes
  Fits l := l.length < 128 ∧ ∀ a ∈ l, c.Fits a
  round_trip l rest h := by
    have hcount : (nat 1).Fits l.length := by
      have hlen := h.1
      change l.length < 256 ^ 1
      omega
    rw [List.append_assoc, (nat 1).decode_encode hcount]
    exact c.readMany_encode h.2 rest

/-- A list that is short enough fits if its entries do. -/
theorem shortList_fits {c : Codec α} {l : List α} (hlen : l.length < 128)
    (h : ∀ a ∈ l, c.Fits a) : c.shortList.Fits l := ⟨hlen, h⟩

/-- Exactly `width` bytes; what is shorter is filled up, what is longer cut. -/
def block (width : ℕ) : Codec (List UInt8) where
  encode l := (l ++ List.replicate width 0).take width
  decode bytes :=
    if width ≤ bytes.length then some (bytes.take width, bytes.drop width)
    else none
  Fits l := l.length = width
  round_trip l rest h := by
    subst h
    rw [List.take_left' rfl, if_pos (by simp), List.take_left' rfl,
      List.drop_left' rfl]

/-- Bytes of the right number fit. -/
theorem block_fits {width : ℕ} {l : List UInt8} (h : l.length = width) :
    (block width).Fits l := h

/-- A block is written in its width. -/
theorem length_encode_block (width : ℕ) (l : List UInt8) :
    ((block width).encode l).length = width := by
  simp [block]

end Codec

end ByteCodec
