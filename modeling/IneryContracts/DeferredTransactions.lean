import IneryContracts.HostInterface
import IneryContracts.MessageOutbox

/-!
# Deferred transactions

What a contract passes to `send_deferred`.  The host keeps the transactions of
a contract under their sender ids, refuses an id that is in use, and decides
from the bytes whether it takes a transaction and when it is due.
-/

namespace Inery

open GuardedStep MessageOutbox

/-- The arguments of `send_deferred`. -/
structure DeferredTransaction where
  senderId : ℕ
  payer : Name
  packedTransaction : List UInt8
deriving DecidableEq

/-- What the host makes of the bytes of a transaction that it is given at a
time: when it is due, or why it does not take it. -/
structure DeferredHost where
  schedule : ℤ → List UInt8 → Except Abort ℤ

/-- A sender id: an account in the high half, `low` in the low half. -/
def senderId (account : Name) (low : ℕ) : ℕ :=
  account.value.toNat * 2 ^ 64 + low

/-- An id tells the halves it is made of. -/
theorem senderId_inj {a b : Name} {low low' : ℕ} (h : low < 2 ^ 64)
    (h' : low' < 2 ^ 64) :
    senderId a low = senderId b low' ↔ a = b ∧ low = low' := by
  constructor
  · intro heq
    unfold senderId at heq
    have hlow : low = low' := by omega
    have hhigh : a.value.toNat = b.value.toNat := by omega
    have hvalue : a.value = b.value := UInt64.toNat_inj.mp hhigh
    cases a
    cases b
    exact ⟨congrArg Name.mk hvalue, hlow⟩
  · rintro ⟨rfl, rfl⟩
    rfl

/-- The message that the host keeps for a transaction. -/
def DeferredHost.sendDeferred (host : DeferredHost) (ctx : Ctx)
    (d : DeferredTransaction) :
    Except Abort (Message ℕ DeferredTransaction) := do
  let due ← host.schedule ctx.currentTimePoint d.packedTransaction
  return ⟨d.senderId, due, d⟩

theorem DeferredHost.sendDeferred_eq_ok {host : DeferredHost} {ctx : Ctx}
    {d : DeferredTransaction} {m : Message ℕ DeferredTransaction} :
    host.sendDeferred ctx d = .ok m ↔
      host.schedule ctx.currentTimePoint d.packedTransaction = .ok m.due ∧
        m.key = d.senderId ∧ m.body = d := by
  simp only [sendDeferred, bind_eq_ok, pure_eq_ok]
  constructor
  · rintro ⟨due, hdue, rfl⟩
    exact ⟨hdue, rfl, rfl⟩
  · rintro ⟨hdue, hkey, rfl⟩
    exact ⟨m.due, hdue, by rw [← hkey]⟩

end Inery
