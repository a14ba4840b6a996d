import IneryContracts.GuardedStep
import IneryContracts.KeyedTable
import IneryContracts.MachineInt
import Mathlib.Data.Fintype.Card
import Mathlib.Data.Fintype.OfMap
import Mathlib.Data.UInt

/-!
# What the contracts see of the chain

Account names, permission levels, the context an action runs in, the ways an
action can stop, and the table interface of the contract library.  A stopped
action changes nothing: the host rolls the whole action back.
-/

namespace Inery

open GuardedStep MachineInt

/-- A 64-bit account name. -/
structure Name where
  value : UInt64
deriving DecidableEq, Repr

namespace Name

instance : LT Name := ⟨fun a b => a.value < b.value⟩

instance (a b : Name) : Decidable (a < b) :=
  inferInstanceAs (Decidable (a.value < b.value))

/-- Names are told apart by their numbers. -/
theorem toNat_injective :
    Function.Injective (fun a : Name => a.value.toFin) := by
  rintro ⟨a⟩ ⟨b⟩ h
  exact congrArg Name.mk (UInt64.toFin_inj.mp h)

noncomputable instance : Fintype Name := Fintype.ofInjective _ toNat_injective

/-- The 5-bit code of a name character. -/
def charToValue (c : Char) : UInt64 :=
  if 'a' ≤ c ∧ c ≤ 'z' then (c.toNat - 'a'.toNat + 6).toUInt64
  else if '1' ≤ c ∧ c ≤ '5' then (c.toNat - '1'.toNat + 1).toUInt64
  else 0

/-- The name spelled by at most twelve characters. -/
def ofChars (cs : List Char) : Name :=
  ⟨(cs.foldl (fun (v : UInt64) c => v <<< 5 ||| charToValue c) 0) <<<
    (4 + 5 * (12 - cs.length)).toUInt64⟩

/-- The name without characters, which no account has. -/
def none : Name := ⟨0⟩

/-- The 13 characters of a name, the last one first. -/
def reversedChars (a : Name) : List Char :=
  let charmap := ".12345abcdefghijklmnopqrstuvwxyz".toList
  let low := charmap.getD (a.value &&& 0xf).toNat '.'
  low :: (List.range 12).map (fun i =>
    charmap.getD ((a.value >>> (4 + 5 * i).toUInt64) &&& 0x1f).toNat '.')

/-- Models `name::to_string`: trailing dots are left out. -/
def toString (a : Name) : String :=
  .ofList (a.reversedChars.dropWhile (· = '.')).reverse

end Name

/-- An account together with one of its permissions. -/
structure PermissionLevel where
  actor : Name
  permission : Name
deriving DecidableEq, Repr

/-- The permission `active` of an account. -/
def activePermission : Name := .ofChars ['a', 'c', 't', 'i', 'v', 'e']

/-- Why an action stopped. -/
inductive Abort
  | check (msg : String)
  | missingAuthority (account : Name)
  /-- A field was read through the end iterator of a table. -/
  | endIterator
  /-- A fraction does not fit the integer it is converted to. -/
  | conversion
  /-- The host does not run this event now. -/
  | notDue
  /-- The recursion budget of the model ran out. -/
  | outOfFuel
deriving DecidableEq, Repr

/-- The `check` of the contract library. -/
def check (p : Prop) [Decidable p] (msg : String) : Except Abort Unit :=
  require p (.check msg)

/-- A check is passed exactly when it holds. -/
@[simp] theorem check_eq_ok {p : Prop} [Decidable p] {msg : String} {u : Unit} :
    check p msg = .ok u ↔ p := require_eq_ok

/-- A check that fails stops with its message. -/
@[simp] theorem check_eq_error {p : Prop} [Decidable p] {msg : String}
    {e : Abort} :
    check p msg = .error e ↔ ¬ p ∧ .check msg = e := require_eq_error

/-- A check succeeds exactly when it holds. -/
@[simp] theorem succeeds_check {p : Prop} [Decidable p] {msg : String} :
    Succeeds (check p msg) ↔ p := succeeds_require

/-- A check avoids its own message where it holds. -/
@[simp] theorem avoids_check {p : Prop} [Decidable p] {msg : String}
    {e : Abort} : Avoids e (check p msg) ↔ (.check msg = e → p) :=
  avoids_require

/-- The surroundings of one action: the permission levels that authorise it,
the slot of the pending block and the accounts that exist. -/
structure Ctx where
  auths : List PermissionLevel
  slot : UInt32
  isAccount : Name → Bool

namespace Ctx

/-- Models `has_auth`. -/
def HasAuth (ctx : Ctx) (a : Name) : Prop :=
  ∃ level ∈ ctx.auths, level.actor = a

instance (ctx : Ctx) (a : Name) : Decidable (ctx.HasAuth a) :=
  inferInstanceAs (Decidable (∃ level ∈ ctx.auths, level.actor = a))

/-- Models `require_auth`. -/
def requireAuth (ctx : Ctx) (a : Name) : Except Abort Unit :=
  require (ctx.HasAuth a) (.missingAuthority a)

/-- The demand for authority is met exactly by a signature. -/
@[simp] theorem requireAuth_eq_ok {ctx : Ctx} {a : Name} {u : Unit} :
    ctx.requireAuth a = .ok u ↔ ctx.HasAuth a := require_eq_ok

/-- A missing signature names the account. -/
@[simp] theorem requireAuth_eq_error {ctx : Ctx} {a : Name} {e : Abort} :
    ctx.requireAuth a = .error e ↔
      ¬ ctx.HasAuth a ∧ .missingAuthority a = e := require_eq_error

/-- A demand for authority stops in no other way. -/
@[simp] theorem avoids_requireAuth {ctx : Ctx} {a : Name} {e : Abort} :
    Avoids e (ctx.requireAuth a) ↔
      (.missingAuthority a = e → ctx.HasAuth a) := avoids_require

/-- Models `current_time_point`, in microseconds since 1970: block slots are
half seconds counted from 2000-01-01. -/
def currentTimePoint (ctx : Ctx) : ℤ :=
  ctx.slot.toNat * 500000 + 946684800000000

/-- Models `current_time_point().sec_since_epoch()`. -/
def secSinceEpoch (ctx : Ctx) : ℤ := ctx.currentTimePoint / 1000000

/-- Time does not run back. -/
theorem currentTimePoint_mono {ctx ctx' : Ctx} (h : ctx.slot ≤ ctx'.slot) :
    ctx.currentTimePoint ≤ ctx'.currentTimePoint := by
  have hnat : ctx.slot.toNat ≤ ctx'.slot.toNat := UInt32.le_iff_toNat_le.mp h
  unfold currentTimePoint
  omega

/-- Nor do its seconds. -/
theorem secSinceEpoch_mono {ctx ctx' : Ctx} (h : ctx.slot ≤ ctx'.slot) :
    ctx.secSinceEpoch ≤ ctx'.secSinceEpoch :=
  Int.ediv_le_ediv (by decide) (currentTimePoint_mono h)

/-- The context of an action that one account signs in a block. -/
def signedBy (a : Name) (slot : UInt32) : Ctx :=
  ⟨[⟨a, activePermission⟩], slot, fun _ => true⟩

end Ctx

/-! ## Conversions of fractions -/

/-- The conversion of a `double` to `int64_t`. -/
def toInt64 (x : ℚ) : Except Abort ℤ := do
  require (-2 ^ 63 ≤ truncate x ∧ truncate x < 2 ^ 63) .conversion
  return truncate x

/-- The conversion of a `double` to `uint64_t`. -/
def toUInt64 (x : ℚ) : Except Abort ℤ := do
  require (0 ≤ truncate x ∧ truncate x < 2 ^ 64) .conversion
  return truncate x

/-- A conversion succeeds exactly in the range of 64 bits. -/
@[simp] theorem toInt64_eq_ok {x : ℚ} {n : ℤ} :
    toInt64 x = .ok n ↔ (-2 ^ 63 ≤ n ∧ n < 2 ^ 63) ∧ n = truncate x := by
  simp only [toInt64, bind_eq_ok, require_eq_ok, pure_eq_ok, exists_const]
  constructor
  · rintro ⟨h, rfl⟩
    exact ⟨h, rfl⟩
  · rintro ⟨h, rfl⟩
    exact ⟨h, rfl⟩

/-- A conversion succeeds exactly in the range of 64 unsigned bits. -/
@[simp] theorem toUInt64_eq_ok {x : ℚ} {n : ℤ} :
    toUInt64 x = .ok n ↔ (0 ≤ n ∧ n < 2 ^ 64) ∧ n = truncate x := by
  simp only [toUInt64, bind_eq_ok, require_eq_ok, pure_eq_ok, exists_const]
  constructor
  · rintro ⟨h, rfl⟩
    exact ⟨h, rfl⟩
  · rintro ⟨h, rfl⟩
    exact ⟨h, rfl⟩

/-! ## The table interface -/

section MultiIndex

variable {K R : Type} {key : R → K} [DecidableEq K]

/-- Models `multi_index::get`. -/
def tableGet (t : KeyedTable key) (k : K) (msg : String) : Except Abort R :=
  orStop (t.find k) (.check msg)

/-- The row an iterator points to, for a field to be read. -/
def deref (o : Option R) : Except Abort R := orStop o .endIterator

/-- Models `multi_index::emplace`. -/
def emplace (t : KeyedTable key) (r : R) :
    Except Abort (KeyedTable key) := do
  check (t.find (key r)).isNone
    "could not insert object, most likely a uniqueness constraint was violated"
  return t.put r

/-- Models `multi_index::modify` with an updater that may fail a check. -/
def modifyM (t : KeyedTable key) (k : K) (f : R → Except Abort R) :
    Except Abort (KeyedTable key) := do
  let r ← orStop (t.find k) (.check "cannot pass end iterator to modify")
  let r' ← f r
  check (key r' = k)
    "updater cannot change primary key when modifying an object"
  return t.put r'

/-- Models `multi_index::modify`. -/
def modify (t : KeyedTable key) (k : K) (f : R → R) :
    Except Abort (KeyedTable key) :=
  modifyM t k (fun r => .ok (f r))

/-- `get` returns the row that is there. -/
@[simp] theorem tableGet_eq_ok {t : KeyedTable key} {k : K} {msg : String}
    {r : R} :
    tableGet t k msg = .ok r ↔ t.find k = some r := orStop_eq_ok

/-- An iterator that points at a row returns it. -/
@[simp] theorem deref_eq_ok {o : Option R} {r : R} :
    deref o = .ok r ↔ o = some r := orStop_eq_ok

/-- A row is added exactly where there is none. -/
@[simp] theorem emplace_eq_ok {t t' : KeyedTable key} {r : R} :
    emplace t r = .ok t' ↔ t.find (key r) = none ∧ t' = t.put r := by
  simp only [emplace, bind_eq_ok, check_eq_ok, pure_eq_ok, exists_const,
    Option.isNone_iff_eq_none]
  exact and_congr_right' eq_comm

/-- A row is changed where there is one, under the same key. -/
@[simp] theorem modifyM_eq_ok {t t' : KeyedTable key} {k : K}
    {f : R → Except Abort R} :
    modifyM t k f = .ok t' ↔ ∃ r r', t.find k = some r ∧ f r = .ok r' ∧
      key r' = k ∧ t' = t.put r' := by
  simp only [modifyM, bind_eq_ok, orStop_eq_ok, check_eq_ok, pure_eq_ok,
    exists_const]
  constructor
  · rintro ⟨r, hr, r', hr', hk, rfl⟩
    exact ⟨r, r', hr, hr', hk, rfl⟩
  · rintro ⟨r, r', hr, hr', hk, rfl⟩
    exact ⟨r, hr, r', hr', hk, rfl⟩

/-- The same where the change itself cannot stop. -/
@[simp] theorem modify_eq_ok {t t' : KeyedTable key} {k : K} {f : R → R} :
    modify t k f = .ok t' ↔ ∃ r, t.find k = some r ∧ key (f r) = k ∧
      t' = t.put (f r) := by
  unfold modify
  rw [modifyM_eq_ok]
  constructor
  · rintro ⟨r, r', hr, hr', hk, rfl⟩
    cases hr'
    exact ⟨r, hr, hk, rfl⟩
  · rintro ⟨r, hr, hk, rfl⟩
    exact ⟨r, f r, hr, rfl, hk, rfl⟩

/-- `get` succeeds exactly where there is a row. -/
@[simp] theorem succeeds_tableGet {t : KeyedTable key} {k : K} {msg : String} :
    Succeeds (tableGet t k msg) ↔ (t.find k).isSome := succeeds_orStop

/-- An iterator can be followed exactly where there is a row. -/
@[simp] theorem succeeds_deref {o : Option R} :
    Succeeds (deref o) ↔ o.isSome := succeeds_orStop

/-- A row can be added exactly where there is none. -/
@[simp] theorem succeeds_emplace {t : KeyedTable key} {r : R} :
    Succeeds (emplace t r) ↔ t.find (key r) = none := by
  simp [Succeeds]

/-- An update that keeps the keys finishes where there is a row. -/
theorem succeeds_modify {t : KeyedTable key} {k : K} {f : R → R}
    (hrow : (t.find k).isSome) (hf : ∀ r, key (f r) = key r) :
    Succeeds (modify t k f) := by
  obtain ⟨r, hr⟩ := Option.isSome_iff_exists.mp hrow
  have hk : key (f r) = k := (hf r).trans (KeyedTable.key_of_find hr)
  exact ⟨_, modify_eq_ok.mpr ⟨r, hr, hk, rfl⟩⟩

/-- `get` stops with its message where there is no row. -/
@[simp] theorem tableGet_eq_error {t : KeyedTable key} {k : K} {msg : String}
    {e : Abort} :
    tableGet t k msg = .error e ↔ t.find k = none ∧ .check msg = e :=
  orStop_eq_error

/-- Following an iterator to the end stops. -/
@[simp] theorem deref_eq_error {o : Option R} {e : Abort} :
    deref o = .error e ↔ o = none ∧ .endIterator = e := orStop_eq_error

/-- Adding a row stops where there is one already. -/
@[simp] theorem emplace_eq_error {t : KeyedTable key} {r : R} {e : Abort} :
    emplace t r = .error e ↔ t.find (key r) ≠ none ∧ .check
      "could not insert object, most likely a uniqueness constraint was violated"
        = e := by
  simp [emplace, pure, Except.pure]

/-- A change stops at a missing row, in the change itself, or because it moves
the row to another key. -/
@[simp] theorem modifyM_eq_error {t : KeyedTable key} {k : K}
    {f : R → Except Abort R} {e : Abort} :
    modifyM t k f = .error e ↔
      t.find k = none ∧ .check "cannot pass end iterator to modify" = e ∨
      ∃ r, t.find k = some r ∧ (f r = .error e ∨ ∃ r', f r = .ok r' ∧
        key r' ≠ k ∧ .check
          "updater cannot change primary key when modifying an object" = e) :=
    by
  simp [modifyM, pure, Except.pure]

/-- `get` stops with its message only, and only without a row. -/
@[simp] theorem avoids_tableGet {t : KeyedTable key} {k : K} {msg : String}
    {e : Abort} :
    Avoids e (tableGet t k msg) ↔ (.check msg = e → t.find k ≠ none) :=
  avoids_orStop

/-- Following an iterator stops only at the end. -/
@[simp] theorem avoids_deref {o : Option R} {e : Abort} :
    Avoids e (deref o) ↔ (.endIterator = e → o ≠ none) := avoids_orStop

end MultiIndex

/-! ## The accounts of the system -/

/-- `inery`, the account of the system contract. -/
def systemAccount : Name := .ofChars ['i', 'n', 'e', 'r', 'y']

/-- `inery.token`, the account of the token contract. -/
def tokenAccount : Name :=
  .ofChars ['i', 'n', 'e', 'r', 'y', '.', 't', 'o', 'k', 'e', 'n']

/-- `inery.mem`, which keeps what is paid for memory. -/
def memAccount : Name :=
  .ofChars ['i', 'n', 'e', 'r', 'y', '.', 'm', 'e', 'm']

/-- `inery.stake`, which keeps the stakes and the refunds. -/
def stakeAccount : Name :=
  .ofChars ['i', 'n', 'e', 'r', 'y', '.', 's', 't', 'a', 'k', 'e']

/-- `inery.bpay`, which pays for blocks. -/
def bpayAccount : Name :=
  .ofChars ['i', 'n', 'e', 'r', 'y', '.', 'b', 'p', 'a', 'y']

/-- `inery.vpay`, which pays for votes. -/
def vpayAccount : Name :=
  .ofChars ['i', 'n', 'e', 'r', 'y', '.', 'v', 'p', 'a', 'y']

/-- `inery.saving`, which keeps the savings. -/
def savingAccount : Name :=
  .ofChars ['i', 'n', 'e', 'r', 'y', '.', 's', 'a', 'v', 'i', 'n', 'g']

/-- The account that creates accounts, which takes no transfers. -/
def accountCreator : Name :=
  .ofChars ['c', 'r', 'e', 'a', 't', 'e', 'a', 'c', 'c']

/-- `b1`, whose stake is vested. -/
def b1Account : Name := .ofChars ['b', '1']

example : systemAccount.value = 8418774716415737856 := by decide

example : stakeAccount.toString = "inery.stake" := by decide +kernel

end Inery
