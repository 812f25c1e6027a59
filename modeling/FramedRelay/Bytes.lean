/-!
# Bytes

What travels on a connection is a list of bytes. This module holds the few operations that
framing needs: the line feed that ends a newline frame, the blanks that a reply sheds at its
end (`Bytes.trimEnd`), and fixed-width little-endian numbers (`Bytes.littleEndian`,
`Bytes.ofLittleEndian`).
-/

namespace FramedRelay

/-- A string of bytes. -/
abbrev Bytes := List UInt8

/-- The byte that ends a newline frame. -/
def lineFeed : UInt8 := 0x0A

namespace Bytes

/-! ## Blanks -/

/-- The ASCII blanks: space, tab, line feed, form feed and carriage return. -/
def isBlank (b : UInt8) : Bool :=
  b == 0x20 || b == 0x09 || b == 0x0A || b == 0x0C || b == 0x0D

/-- The bytes without the ASCII blanks at their end. -/
def trimEnd (bs : Bytes) : Bytes :=
  (bs.reverse.dropWhile isBlank).reverse

/-! ## Little-endian numbers -/

/-- The `width` lowest base-256 digits of `n`, the lowest first. -/
def littleEndian : Nat → Nat → Bytes
  | 0, _ => []
  | width + 1, n => UInt8.ofNat (n % 256) :: littleEndian width (n / 256)

/-- The number whose base-256 digits, the lowest first, are `bs`. -/
def ofLittleEndian : Bytes → Nat
  | [] => 0
  | b :: bs => b.toNat + 256 * ofLittleEndian bs

theorem length_littleEndian (width n : Nat) : (littleEndian width n).length = width := by
  induction width generalizing n with
  | zero => rfl
  | succ width ih => simp [littleEndian, ih]

/-- A number below `Nat.pow 256 width` is read back from its `width` digits. -/
theorem ofLittleEndian_littleEndian {width n : Nat} (h : n < Nat.pow 256 width) :
    ofLittleEndian (littleEndian width n) = n := by
  induction width generalizing n with
  | zero => rw [Nat.lt_one_iff.mp h]; rfl
  | succ width ih =>
    have hlow : (UInt8.ofNat (n % 256)).toNat = n % 256 :=
      UInt8.toNat_ofNat_of_lt' (Nat.mod_lt n (by decide))
    have hhigh : n / 256 < Nat.pow 256 width := Nat.div_lt_of_lt_mul (Nat.mul_comm _ 256 ▸ h)
    simp only [littleEndian, ofLittleEndian, ih hhigh, hlow]
    exact Nat.mod_add_div n 256

end Bytes

end FramedRelay
