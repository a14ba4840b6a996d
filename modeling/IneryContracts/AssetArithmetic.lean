import IneryContracts.HostInterface
import Mathlib.Data.Int.Basic
import Mathlib.Tactic.Common

/-!
# Symbols and assets

Token symbols and the checked arithmetic of token amounts: every operation
asserts that the symbols agree and that the result stays within the range of
an asset.
-/

namespace Inery

open GuardedStep

/-- The code of a token symbol: up to seven letters, one byte each. -/
@[ext] structure SymbolCode where
  raw : UInt64
deriving DecidableEq, Repr

namespace SymbolCode

/-- The code spelled by some characters, the first in the lowest byte. -/
def ofChars (cs : List Char) : SymbolCode :=
  ⟨cs.foldr (fun c (v : UInt64) => v <<< 8 ||| c.toNat.toUInt64) 0⟩

/-- The seven bytes of a code. -/
def bytes (c : SymbolCode) : List UInt64 :=
  (List.range 7).map (fun i => (c.raw >>> (8 * i).toUInt64) &&& 0xff)

/-- Models `symbol_code::is_valid`: letters first, at least one, then zero
bytes. -/
def isValid (c : SymbolCode) : Bool :=
  let letters := c.bytes.takeWhile (· ≠ 0)
  !letters.isEmpty && letters.all (fun b => 65 ≤ b && b ≤ 90) &&
    (c.bytes.drop letters.length).all (· = 0)

end SymbolCode

/-- A token symbol: the code above one byte of precision. -/
structure Symbol where
  raw : UInt64
deriving DecidableEq, Repr

namespace Symbol

/-- The constructor `symbol( symbol_code, precision )` -/
def make (c : SymbolCode) (precision : UInt8) : Symbol :=
  ⟨c.raw <<< 8 ||| precision.toUInt64⟩

def code (s : Symbol) : SymbolCode := ⟨s.raw >>> 8⟩

/-- Models `symbol::is_valid`. -/
def isValid (s : Symbol) : Bool := s.code.isValid

/-- A code taken out of a symbol leaves the top byte clear. -/
theorem code_raw_lt (s : Symbol) : s.code.raw.toNat < 2 ^ 56 := by
  have h := s.raw.toNat_lt
  have hcode : s.code.raw.toNat = s.raw.toNat / 2 ^ 8 := by
    simp [code, Nat.shiftRight_eq_div_pow]
  omega

end Symbol

/-- The code `INR`. -/
def inrCode : SymbolCode := .ofChars ['I', 'N', 'R']

/-- The core symbol of the running chain. -/
def inrSymbol : Symbol := .make inrCode 4

/-- Models `memcore_symbol`. -/
def memcoreSymbol : Symbol :=
  .make (.ofChars ['M', 'E', 'M', 'C', 'O', 'R', 'E']) 4

/-- Models `mem_symbol`. -/
def memSymbol : Symbol := .make (.ofChars ['M', 'E', 'M']) 0

/-- An amount of some token. -/
structure Asset where
  amount : ℤ
  symbol : Symbol
deriving DecidableEq, Repr

namespace Asset

/-- The largest magnitude of an asset. -/
def maxAmount : ℤ := 2 ^ 62 - 1

/-- Models `asset::is_amount_within_range`. -/
def InRange (x : ℤ) : Prop := -maxAmount ≤ x ∧ x ≤ maxAmount

instance (x : ℤ) : Decidable (InRange x) :=
  inferInstanceAs (Decidable (_ ∧ _))

/-- Models `asset::is_valid`. -/
def IsValid (a : Asset) : Prop := InRange a.amount ∧ a.symbol.isValid = true

instance (a : Asset) : Decidable a.IsValid :=
  inferInstanceAs (Decidable (_ ∧ _))

/-- The checked constructor. -/
def make (amount : ℤ) (symbol : Symbol) : Except Abort Asset := do
  check (InRange amount) "magnitude of asset amount must be less than 2^62"
  check (symbol.isValid = true) "invalid symbol name"
  return ⟨amount, symbol⟩

/-- The checked `operator+=` -/
def add (a b : Asset) : Except Abort Asset := do
  check (b.symbol = a.symbol) "attempt to add asset with different symbol"
  check (-maxAmount ≤ a.amount + b.amount) "addition underflow"
  check (a.amount + b.amount ≤ maxAmount) "addition overflow"
  return { a with amount := a.amount + b.amount }

/-- The checked `operator-=` -/
def sub (a b : Asset) : Except Abort Asset := do
  check (b.symbol = a.symbol)
    "attempt to subtract asset with different symbol"
  check (-maxAmount ≤ a.amount - b.amount) "subtraction underflow"
  check (a.amount - b.amount ≤ maxAmount) "subtraction overflow"
  return { a with amount := a.amount - b.amount }

/-- Unary `operator-` -/
def neg (a : Asset) : Asset := { a with amount := -a.amount }

/-- The checked `operator*=` -/
def mul (a : Asset) (k : ℤ) : Except Abort Asset := do
  check (a.amount * k ≤ maxAmount) "multiplication overflow"
  check (-maxAmount ≤ a.amount * k) "multiplication underflow"
  return { a with amount := a.amount * k }

/-- The checked `operator/=`, rounding towards zero. -/
def div (a : Asset) (k : ℤ) : Except Abort Asset := do
  check (k ≠ 0) "divide by zero"
  check (¬ (a.amount = -2 ^ 63 ∧ k = -1)) "signed division overflow"
  return { a with amount := a.amount.tdiv k }

/-- The statement `check( a >= b, msg )`: comparing needs equal symbols. -/
def checkGe (a b : Asset) (msg : String) : Except Abort Unit := do
  check (a.symbol = b.symbol)
    "comparison of assets with different symbols is not allowed"
  check (b.amount ≤ a.amount) msg

@[simp] theorem make_eq_ok {amount : ℤ} {symbol : Symbol} {a : Asset} :
    make amount symbol = .ok a ↔
      InRange amount ∧ symbol.isValid = true ∧ a = ⟨amount, symbol⟩ := by
  simp only [make, bind_eq_ok, check_eq_ok, pure_eq_ok, exists_const,
    @eq_comm _ a]

@[simp] theorem add_eq_ok {a b c : Asset} :
    a.add b = .ok c ↔ b.symbol = a.symbol ∧
      InRange (a.amount + b.amount) ∧
      c = { a with amount := a.amount + b.amount } := by
  simp only [add, bind_eq_ok, check_eq_ok, pure_eq_ok, exists_const,
    InRange, and_assoc, @eq_comm _ c]

@[simp] theorem sub_eq_ok {a b c : Asset} :
    a.sub b = .ok c ↔ b.symbol = a.symbol ∧
      InRange (a.amount - b.amount) ∧
      c = { a with amount := a.amount - b.amount } := by
  simp only [sub, bind_eq_ok, check_eq_ok, pure_eq_ok, exists_const,
    InRange, and_assoc, @eq_comm _ c]

@[simp] theorem mul_eq_ok {a c : Asset} {k : ℤ} :
    a.mul k = .ok c ↔ InRange (a.amount * k) ∧
      c = { a with amount := a.amount * k } := by
  simp only [mul, bind_eq_ok, check_eq_ok, pure_eq_ok, exists_const, InRange,
    @eq_comm _ c]
  constructor
  · intro h
    exact ⟨⟨h.2.1, h.1⟩, h.2.2⟩
  · intro h
    exact ⟨h.1.2, h.1.1, h.2⟩

theorem div_eq_ok {a c : Asset} {k : ℤ} (hk : 0 < k) :
    a.div k = .ok c ↔ c = { a with amount := a.amount.tdiv k } := by
  have hne : k ≠ 0 := by omega
  have hneg : ¬ (a.amount = -2 ^ 63 ∧ k = -1) := by omega
  simp only [div, bind_eq_ok, check_eq_ok, pure_eq_ok, exists_const,
    @eq_comm _ c]
  exact ⟨fun h => h.2.2, fun h => ⟨hne, hneg, h⟩⟩

@[simp] theorem checkGe_eq_ok {a b : Asset} {msg : String} {u : Unit} :
    a.checkGe b msg = .ok u ↔ a.symbol = b.symbol ∧ b.amount ≤ a.amount := by
  simp only [checkGe, bind_eq_ok, check_eq_ok, exists_const]

end Asset

example : inrCode.isValid = true := by decide

end Inery
