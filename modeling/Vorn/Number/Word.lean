/-!
# Integers of 64 bits

An integer of the language is a signed 64-bit number. Arithmetic is done in `Int`, and a result
that leaves the range is wrapped back into it.
-/

namespace Vorn.Word

/-- How many integers 64 bits can hold, two to the power of 64. -/
def modulus : Nat := 0x10000000000000000

def min : Int := -0x8000000000000000

def max : Int := 0x7fffffffffffffff

/-- The integers that 64 bits can hold. -/
def InRange (n : Int) : Prop := min ≤ n ∧ n ≤ max

instance (n : Int) : Decidable (InRange n) := inferInstanceAs (Decidable (_ ∧ _))

/-- The number in range that differs from `n` by a multiple of the modulus. -/
def wrap (n : Int) : Int := n.bmod modulus

/-- The same 64 bits read without a sign. -/
def unsigned (n : Int) : Nat := (n % (modulus : Int)).toNat

theorem inRange_wrap (n : Int) : InRange (wrap n) := by
  have h1 := Int.le_bmod (x := n) (m := modulus) (by decide)
  have h2 := Int.bmod_lt (x := n) (m := modulus) (by decide)
  simp only [InRange, wrap, min, max, modulus] at *
  omega

theorem wrap_eq_self {n : Int} (h : InRange n) : wrap n = n := by
  simp only [InRange, min, max] at h
  exact Int.bmod_eq_of_le (by simp only [modulus]; omega) (by simp only [modulus]; omega)

/-! ## Bitwise operations

Each bit of the result depends on the bits at the same place; a negative number has infinitely
many leading ones. -/

/-- Applies a bitwise operation on 64 bits. -/
def bitwise (f : BitVec 64 → BitVec 64 → BitVec 64) (a b : Int) : Int :=
  (f (.ofInt 64 a) (.ofInt 64 b)).toInt

def and (a b : Int) : Int := bitwise (· &&& ·) a b

def or (a b : Int) : Int := bitwise (· ||| ·) a b

def xor (a b : Int) : Int := bitwise (· ^^^ ·) a b

/-- Every bit turned. -/
def complement (a : Int) : Int := -a - 1

/-- A shift by 64 or more leaves nothing. -/
def shiftLeft (a : Int) (count : Nat) : Int :=
  if count < 64 then wrap (a <<< count) else 0

/-- Copies of the sign move in; from 63 on only they are left. -/
def shiftRight (a : Int) (count : Nat) : Int := a >>> Nat.min count 63

/-- The power `base ^ e`, wrapped, by repeated squaring: `acc * base ^ e`. -/
def powFrom (acc base : Int) (e : Nat) : Int :=
  if h : e = 0 then acc
  else
    powFrom (if e % 2 = 1 then wrap (acc * base) else acc) (wrap (base * base)) (e / 2)
termination_by e
decreasing_by omega

/-- The power `base ^ e`, wrapped. -/
def pow (base : Int) (e : Nat) : Int := powFrom 1 (wrap base) e

end Vorn.Word
