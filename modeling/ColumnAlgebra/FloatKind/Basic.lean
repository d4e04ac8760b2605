/-!
# Binary floating point numbers

The two kinds differ in precision and in the width of the exponent. A number's bits decode to a sign
and an exact magnitude `m * 2 ^ q`, or to an infinity, or to no number.
-/

namespace ColumnAlgebra
set_option autoImplicit false

inductive FloatKind where
  | single
  | double
  deriving DecidableEq

/-- What the bits of a floating point number stand for. -/
inductive FloatParts where
  | nan
  | infinite (negative : Bool)
  | finite (negative : Bool) (m : Nat) (q : Int)
  deriving DecidableEq

namespace FloatKind

def Number : FloatKind → Type
  | single => Float32
  | double => Float

/-- The bits of a significand, the leading one included. -/
def precision : FloatKind → Nat
  | single => 24
  | double => 53

def exponentBits : FloatKind → Nat
  | single => 8
  | double => 11

/-- The exponent of the last place of the smallest numbers. -/
def leastExponent (k : FloatKind) : Int := 3 - Nat.pow 2 (k.exponentBits - 1) - k.precision

/-- The bits of infinity, which lie above those of every finite magnitude. -/
def infinityBits (k : FloatKind) : Nat :=
  (Nat.pow 2 k.exponentBits - 1) * Nat.pow 2 (k.precision - 1)

def signBit (k : FloatKind) : Nat := Nat.pow 2 (k.precision - 1 + k.exponentBits)

def toBits : (k : FloatKind) → k.Number → Nat
  | single, x => (show Float32 from x).toBits.toNat
  | double, x => (show Float from x).toBits.toNat

def ofBits : (k : FloatKind) → Nat → k.Number
  | single, n => (Float32.ofBits n.toUInt32 : Float32)
  | double, n => (Float.ofBits n.toUInt64 : Float)

def partsOfBits (k : FloatKind) (bits : Nat) : FloatParts :=
  let half := Nat.pow 2 (k.precision - 1)
  let negative := bits / k.signBit % 2 == 1
  let magnitude := bits % k.signBit
  let exponent := magnitude / half
  let fraction := magnitude % half
  if magnitude > k.infinityBits then .nan
  else if magnitude = k.infinityBits then .infinite negative
  else if exponent = 0 then .finite negative fraction k.leastExponent
  else .finite negative (half + fraction) (k.leastExponent + (exponent - 1))

def parts (k : FloatKind) (x : k.Number) : FloatParts := k.partsOfBits (k.toBits x)

end FloatKind
end ColumnAlgebra
