import IneryContracts.HostInterface

/-!
# The multisig contract

Proposals of `inery.msig`, the approvals they ask for and have been given, and
the invalidations of accounts.  A packed transaction is a list of bytes; what
the host finds in one, and whether it accepts the permissions provided for it,
enters from outside.
-/

namespace Inery

open GuardedStep

/-- A row of the `proposal` table. -/
structure Proposal where
  proposalName : Name
  packedTransaction : List UInt8
deriving DecidableEq

/-- A level with the time it was approved. -/
structure Approval where
  level : PermissionLevel
  time : ℤ
deriving DecidableEq

/-- A row of the `approvals2` table. -/
structure ApprovalsInfo where
  proposalName : Name
  requestedApprovals : List Approval
  providedApprovals : List Approval
deriving DecidableEq

/-- A row of the older `approvals` table, without times. -/
structure OldApprovalsInfo where
  proposalName : Name
  requestedApprovals : List PermissionLevel
  providedApprovals : List PermissionLevel
deriving DecidableEq

/-- A row of the `invals` table. -/
structure Invalidation where
  account : Name
  lastInvalidationTime : ℤ
deriving DecidableEq

/-- The tables of the contract, the first three scoped by the proposer, and the
slot of the last action. -/
structure MultisigState where
  proposals : Name → KeyedTable Proposal.proposalName
  approvals : Name → KeyedTable ApprovalsInfo.proposalName
  oldApprovals : Name → KeyedTable OldApprovalsInfo.proposalName
  invalidations : KeyedTable Invalidation.account
  slot : UInt32

/-- The library of the host: the expiration in the header of a packed
transaction, none if the bytes do not hold a header, and the hash. -/
structure MultisigHost where
  headerExpiration : List UInt8 → Option UInt32
  sha256 : List UInt8 → List UInt8

/-- The surroundings of one action; the permissions that a transaction needs
may differ from one action to the next. -/
structure MultisigCtx extends Ctx where
  checkTransactionAuthorization : List UInt8 → List PermissionLevel → ℤ

/-- The actions. -/
inductive MultisigAction
  | propose (proposer proposalName : Name) (requested : List PermissionLevel)
      (trx : List UInt8)
  | approve (proposer proposalName : Name) (level : PermissionLevel)
      (proposalHash : Option (List UInt8))
  | unapprove (proposer proposalName : Name) (level : PermissionLevel)
  | cancel (proposer proposalName canceler : Name)
  | exec (proposer proposalName executer : Name)
  | invalidate (account : Name)
deriving DecidableEq

/-- What `exec` passes to the host: the levels that are checked, and the
transaction that is sent. -/
structure Execution where
  provided : List PermissionLevel
  senderId : ℕ
  payer : Name
  packedTransaction : List UInt8
deriving DecidableEq

namespace MultisigState

/-- The contract before its first action. -/
def genesis : MultisigState where
  proposals _ := .empty
  approvals _ := .empty
  oldApprovals _ := .empty
  invalidations := .empty
  slot := 0

variable (s : MultisigState)

/-- Replace the proposals of one proposer. -/
def setProposals (proposer : Name)
    (proptable : KeyedTable Proposal.proposalName) : MultisigState :=
  { s with proposals := Function.update s.proposals proposer proptable }

/-- Replace the approvals of one proposer. -/
def setApprovals (proposer : Name)
    (apptable : KeyedTable ApprovalsInfo.proposalName) : MultisigState :=
  { s with approvals := Function.update s.approvals proposer apptable }

/-- Replace the older approvals of one proposer. -/
def setOldApprovals (proposer : Name)
    (oldApptable : KeyedTable OldApprovalsInfo.proposalName) :
    MultisigState :=
  { s with
    oldApprovals := Function.update s.oldApprovals proposer oldApptable }

end MultisigState

/-- Models `require_auth` of a permission level. -/
def Ctx.requireAuthLevel (ctx : Ctx) (level : PermissionLevel) :
    Except Abort Unit :=
  require (level ∈ ctx.auths) (.missingAuthority level.actor)

@[simp] theorem Ctx.requireAuthLevel_eq_ok {ctx : Ctx}
    {level : PermissionLevel} {u : Unit} :
    ctx.requireAuthLevel level = .ok u ↔ level ∈ ctx.auths := require_eq_ok

/-- Move the first request for a level to the approvals given. -/
def ApprovalsInfo.grant (a : ApprovalsInfo) (level : PermissionLevel)
    (now : ℤ) : ApprovalsInfo :=
  { a with
    providedApprovals := a.providedApprovals ++ [⟨level, now⟩]
    requestedApprovals :=
      a.requestedApprovals.eraseP (fun r => r.level = level) }

/-- Move the first approval of a level back to the requests. -/
def ApprovalsInfo.revoke (a : ApprovalsInfo) (level : PermissionLevel)
    (now : ℤ) : ApprovalsInfo :=
  { a with
    requestedApprovals := a.requestedApprovals ++ [⟨level, now⟩]
    providedApprovals :=
      a.providedApprovals.eraseP (fun p => p.level = level) }

namespace Multisig

/-- Reading the header of a packed transaction. -/
def unpackExpiration (host : MultisigHost) (trx : List UInt8) :
    Except Abort UInt32 :=
  orStop (host.headerExpiration trx)
    (.check "datastream attempted to read past the end")

/-- Models `propose`: `trx` is what the data of the action holds after the
requested levels. -/
def propose (host : MultisigHost) (ctx : MultisigCtx) (s : MultisigState)
    (proposer proposalName : Name) (requested : List PermissionLevel)
    (trx : List UInt8) : Except Abort MultisigState := do
  let expiration ← unpackExpiration host trx
  ctx.requireAuth proposer
  check ((expiration.toNat : ℤ) ≥ ctx.secSinceEpoch) "transaction expired"
  let proptable := s.proposals proposer
  check (proptable.find proposalName).isNone
    "proposal with the same name exists"
  let res := ctx.checkTransactionAuthorization trx requested
  check (res > 0) "transaction authorization failed"
  let proptable ← emplace proptable ⟨proposalName, trx⟩
  let apptable ← emplace (s.approvals proposer)
    { proposalName := proposalName
      requestedApprovals := requested.map (fun level => ⟨level, 0⟩)
      providedApprovals := [] }
  return (s.setProposals proposer proptable).setApprovals proposer apptable

/-- The first half of `approve`: a hash must be that of the proposal. -/
def checkHash (host : MultisigHost) (s : MultisigState)
    (proposer proposalName : Name) :
    Option (List UInt8) → Except Abort Unit
  | none => return
  | some hash => do
      let prop ← tableGet (s.proposals proposer) proposalName
        "proposal not found"
      check (host.sha256 prop.packedTransaction = hash) "hash mismatch"

/-- Models `approve`. -/
def approve (host : MultisigHost) (ctx : MultisigCtx) (s : MultisigState)
    (proposer proposalName : Name) (level : PermissionLevel)
    (proposalHash : Option (List UInt8)) : Except Abort MultisigState := do
  ctx.requireAuthLevel level
  checkHash host s proposer proposalName proposalHash
  let apptable := s.approvals proposer
  match apptable.find proposalName with
  | some apps =>
      check (apps.requestedApprovals.any (fun r => r.level = level) = true)
        "approval is not on the list of requested approvals"
      let apptable ← modify apptable proposalName
        (ApprovalsInfo.grant · level ctx.currentTimePoint)
      return s.setApprovals proposer apptable
  | none =>
      let oldApptable := s.oldApprovals proposer
      let apps ← tableGet oldApptable proposalName "proposal not found"
      check (level ∈ apps.requestedApprovals)
        "approval is not on the list of requested approvals"
      let oldApptable ← modify oldApptable proposalName (fun a => { a with
        providedApprovals := a.providedApprovals ++ [level]
        requestedApprovals := a.requestedApprovals.erase level })
      return s.setOldApprovals proposer oldApptable

/-- Models `unapprove`. -/
def unapprove (ctx : MultisigCtx) (s : MultisigState)
    (proposer proposalName : Name) (level : PermissionLevel) :
    Except Abort MultisigState := do
  ctx.requireAuthLevel level
  let apptable := s.approvals proposer
  match apptable.find proposalName with
  | some apps =>
      check (apps.providedApprovals.any (fun p => p.level = level) = true)
        "no approval previously granted"
      let apptable ← modify apptable proposalName
        (ApprovalsInfo.revoke · level ctx.currentTimePoint)
      return s.setApprovals proposer apptable
  | none =>
      let oldApptable := s.oldApprovals proposer
      let apps ← tableGet oldApptable proposalName "proposal not found"
      check (level ∈ apps.providedApprovals) "no approval previously granted"
      let oldApptable ← modify oldApptable proposalName (fun a => { a with
        requestedApprovals := a.requestedApprovals ++ [level]
        providedApprovals := a.providedApprovals.erase level })
      return s.setOldApprovals proposer oldApptable

/-- Before it has expired only the proposer may cancel a proposal. -/
def checkCanceler (host : MultisigHost) (ctx : MultisigCtx) (prop : Proposal)
    (proposer canceler : Name) : Except Abort Unit := do
  if canceler ≠ proposer then
    let expiration ← unpackExpiration host prop.packedTransaction
    check ((expiration.toNat : ℤ) < ctx.secSinceEpoch)
      "cannot cancel until expiration"

/-- Models `cancel`. -/
def cancel (host : MultisigHost) (ctx : MultisigCtx) (s : MultisigState)
    (proposer proposalName canceler : Name) : Except Abort MultisigState := do
  ctx.requireAuth canceler
  let proptable := s.proposals proposer
  let prop ← tableGet proptable proposalName "proposal not found"
  checkCanceler host ctx prop proposer canceler
  let s := s.setProposals proposer (proptable.erase proposalName)
  let apptable := s.approvals proposer
  match apptable.find proposalName with
  | some _ => return s.setApprovals proposer (apptable.erase proposalName)
  | none =>
      let oldApptable := s.oldApprovals proposer
      check (oldApptable.find proposalName).isSome "proposal not found"
      return s.setOldApprovals proposer (oldApptable.erase proposalName)

/-- An approval counts unless its actor has invalidated it, at the same time or
later. -/
def stands (s : MultisigState) (p : Approval) : Bool :=
  match s.invalidations.find p.level.actor with
  | none => true
  | some it => decide (it.lastInvalidationTime < p.time)

/-- The approvals of a proposal that count; the row is erased. -/
def takeApprovals (s : MultisigState) (proposer proposalName : Name) :
    Except Abort (MultisigState × List PermissionLevel) := do
  let apptable := s.approvals proposer
  match apptable.find proposalName with
  | some apps =>
      return (s.setApprovals proposer (apptable.erase proposalName),
        (apps.providedApprovals.filter (stands s)).map (·.level))
  | none =>
      let oldApptable := s.oldApprovals proposer
      let apps ← tableGet oldApptable proposalName "proposal not found"
      return (s.setOldApprovals proposer (oldApptable.erase proposalName),
        apps.providedApprovals.filter
          (fun level => (s.invalidations.find level.actor).isNone))

/-- Models `exec`. -/
def exec (host : MultisigHost) (ctx : MultisigCtx) (s : MultisigState)
    (proposer proposalName executer : Name) :
    Except Abort (MultisigState × Execution) := do
  ctx.requireAuth executer
  let proptable := s.proposals proposer
  let prop ← tableGet proptable proposalName "proposal not found"
  let expiration ← unpackExpiration host prop.packedTransaction
  check ((expiration.toNat : ℤ) ≥ ctx.secSinceEpoch) "transaction expired"
  let (s, approvals) ← takeApprovals s proposer proposalName
  let res := ctx.checkTransactionAuthorization prop.packedTransaction
    approvals
  check (res > 0) "transaction authorization failed"
  return (s.setProposals proposer (proptable.erase proposalName),
    { provided := approvals
      senderId := proposer.value.toNat * 2 ^ 64 + proposalName.value.toNat
      payer := executer
      packedTransaction := prop.packedTransaction })

/-- Models `invalidate`. -/
def invalidate (ctx : MultisigCtx) (s : MultisigState) (account : Name) :
    Except Abort MultisigState := do
  ctx.requireAuth account
  let now := ctx.currentTimePoint
  match s.invalidations.find account with
  | none =>
      let invalidations ← emplace s.invalidations ⟨account, now⟩
      return { s with invalidations }
  | some _ =>
      let invalidations ← modify s.invalidations account
        (fun i => { i with lastInvalidationTime := now })
      return { s with invalidations }

/-- Run one action: the state it leaves, and what it has executed. -/
def apply (host : MultisigHost) (ctx : MultisigCtx) (s : MultisigState) :
    MultisigAction → Except Abort (MultisigState × Option Execution)
  | .propose proposer proposalName requested trx => do
      let s ← propose host ctx s proposer proposalName requested trx
      return (s, none)
  | .approve proposer proposalName level proposalHash => do
      let s ← approve host ctx s proposer proposalName level proposalHash
      return (s, none)
  | .unapprove proposer proposalName level => do
      let s ← unapprove ctx s proposer proposalName level
      return (s, none)
  | .cancel proposer proposalName canceler => do
      let s ← cancel host ctx s proposer proposalName canceler
      return (s, none)
  | .exec proposer proposalName executer => do
      let (s, x) ← exec host ctx s proposer proposalName executer
      return (s, some x)
  | .invalidate account => do
      let s ← invalidate ctx s account
      return (s, none)

end Multisig

end Inery
