import IneryContracts.MultisigDelivery

/-!
# Proposals are isolated

When an action of the multisig contract succeeds can be told from the rows of
the proposal it names and from the invalidations, and for an execution from
whether the host takes the transaction.  So nothing that happens to other
proposals, of the same proposer or of others, can stop it, let it pass or change
what it does, in whatever order the actions come.
-/

namespace Inery

open GuardedStep LabelledRun MessageOutbox

/-- The header of a transaction can be read, and it has not expired. -/
def MultisigHost.Timely (host : MultisigHost) (ctx : MultisigCtx)
    (trx : List UInt8) : Prop :=
  ∃ expiration, host.headerExpiration trx = some expiration ∧
    (expiration.toNat : ℤ) ≥ ctx.secSinceEpoch

/-- The levels that have approved and whose actors have not invalidated it. -/
def ApprovalsInfo.standing (a : ApprovalsInfo) (s : MultisigState) :
    List PermissionLevel :=
  (a.providedApprovals.filter (Multisig.stands s)).map (·.level)

/-- What an action needs, told from the rows of its proposal. -/
def MultisigState.Enabled (host : MultisigHost) (ctx : MultisigCtx)
    (s : MultisigState) : MultisigAction → Prop
  | .propose proposer name requested trx =>
      host.Timely ctx trx ∧ ctx.HasAuth proposer ∧
      s.proposalOf proposer name = none ∧
      ctx.checkTransactionAuthorization trx requested > 0 ∧
      s.approvalsOf proposer name = none
  | .approve proposer name level proposalHash =>
      level ∈ ctx.auths ∧
      (∀ hash, proposalHash = some hash → ∃ prop,
        s.proposalOf proposer name = some prop ∧
        host.sha256 prop.packedTransaction = hash) ∧
      ∃ row, s.approvalsOf proposer name = some row ∧
        ∃ r ∈ row.requestedApprovals, r.level = level
  | .unapprove proposer name level =>
      level ∈ ctx.auths ∧
      ∃ row, s.approvalsOf proposer name = some row ∧
        ∃ p ∈ row.providedApprovals, p.level = level
  | .cancel proposer name canceler =>
      ctx.HasAuth canceler ∧
      (∃ prop, s.proposalOf proposer name = some prop ∧
        (canceler = proposer ∨ prop.Expired host ctx)) ∧
      (s.approvalsOf proposer name).isSome
  | .exec proposer name executer =>
      ctx.HasAuth executer ∧
      ∃ prop row, s.proposalOf proposer name = some prop ∧
        s.approvalsOf proposer name = some row ∧
        host.Timely ctx prop.packedTransaction ∧
        ctx.checkTransactionAuthorization prop.packedTransaction
          (row.standing s) > 0
  | .invalidate account => ctx.HasAuth account

namespace Multisig

section Enabled

variable {host : MultisigHost} {ctx : MultisigCtx} {s : MultisigState}
  {proposer name : Name} {level : PermissionLevel}

/-- Every check of `propose` is one of what it needs. -/
theorem propose_enabled {requested : List PermissionLevel}
    {trx : List UInt8} :
    Succeeds (propose host ctx s proposer name requested trx) ↔
      s.Enabled host ctx (.propose proposer name requested trx) := by
  simp only [Succeeds, propose, unpackExpiration, bind_eq_ok, orStop_eq_ok,
    Ctx.requireAuth_eq_ok, check_eq_ok, emplace_eq_ok, pure_eq_ok,
    exists_const, Option.isNone_iff_eq_none]
  constructor
  · rintro ⟨_, expiration, hheader, hauth, htimely, hfresh, hneeds, _, _, _,
      ⟨hrow, _⟩, _⟩
    exact ⟨⟨expiration, hheader, htimely⟩, hauth, hfresh, hneeds, hrow⟩
  · rintro ⟨⟨expiration, hheader, htimely⟩, hauth, hfresh, hneeds, hrow⟩
    exact ⟨_, expiration, hheader, hauth, htimely, hfresh, hneeds, _,
      ⟨hfresh, rfl⟩, _, ⟨hrow, rfl⟩, rfl⟩

theorem checkHash_enabled {proposalHash : Option (List UInt8)} :
    checkHash host s proposer name proposalHash = .ok () ↔
      ∀ hash, proposalHash = some hash → ∃ prop,
        s.proposalOf proposer name = some prop ∧
        host.sha256 prop.packedTransaction = hash := by
  cases proposalHash with
  | none => simp [checkHash]
  | some hash =>
      simp only [checkHash, bind_eq_ok, tableGet_eq_ok, check_eq_ok,
        Option.some.injEq, forall_eq']
      rfl

theorem approve_enabled (hold : s.NoOld)
    {proposalHash : Option (List UInt8)} :
    Succeeds (approve host ctx s proposer name level proposalHash) ↔
      s.Enabled host ctx (.approve proposer name level proposalHash) := by
  constructor
  · rintro ⟨s', h⟩
    obtain ⟨hauth, hhash, row, hrow, hasked, _⟩ := approve_ok h hold
    exact ⟨hauth, hhash, row, hrow, hasked⟩
  · rintro ⟨hauth, hhash, row, hrow, hasked⟩
    have hfind : (s.approvals proposer).find name = some row := hrow
    have hkey : row.proposalName = name := KeyedTable.key_of_find hfind
    simp only [Succeeds, approve, bind_eq_ok, Ctx.requireAuthLevel_eq_ok,
      checkHash_enabled.mpr hhash, hfind, check_eq_ok, modify_eq_ok,
      pure_eq_ok, exists_const]
    refine ⟨_, hauth, trivial, ?_, _, ⟨row, rfl, hkey, rfl⟩, rfl⟩
    simpa using hasked

theorem unapprove_enabled (hold : s.NoOld) :
    Succeeds (unapprove ctx s proposer name level) ↔
      s.Enabled host ctx (.unapprove proposer name level) := by
  constructor
  · rintro ⟨s', h⟩
    obtain ⟨row, hrow, hgiven, _⟩ := unapprove_ok h hold
    simp only [unapprove, bind_eq_ok, Ctx.requireAuthLevel_eq_ok] at h
    obtain ⟨_, hauth, _⟩ := h
    exact ⟨hauth, row, hrow, hgiven⟩
  · rintro ⟨hauth, row, hrow, hgiven⟩
    have hfind : (s.approvals proposer).find name = some row := hrow
    have hkey : row.proposalName = name := KeyedTable.key_of_find hfind
    simp only [Succeeds, unapprove, bind_eq_ok, Ctx.requireAuthLevel_eq_ok,
      hfind, check_eq_ok, modify_eq_ok, pure_eq_ok, exists_const]
    refine ⟨_, hauth, ?_, _, ⟨row, rfl, hkey, rfl⟩, rfl⟩
    simpa using hgiven

theorem checkCanceler_enabled {prop : Proposal} {canceler : Name} :
    checkCanceler host ctx prop proposer canceler = .ok () ↔
      canceler = proposer ∨ prop.Expired host ctx := by
  unfold checkCanceler
  by_cases hown : canceler = proposer
  · simp [hown]
  · simp only [hown, ne_eq, not_false_eq_true, if_true, bind_eq_ok,
      unpackExpiration, orStop_eq_ok, check_eq_ok, false_or]
    rfl

theorem cancel_enabled (hold : s.NoOld) {canceler : Name} :
    Succeeds (cancel host ctx s proposer name canceler) ↔
      s.Enabled host ctx (.cancel proposer name canceler) := by
  constructor
  · rintro ⟨s', h⟩
    simp only [cancel, bind_eq_ok, Ctx.requireAuth_eq_ok, tableGet_eq_ok,
      exists_const] at h
    obtain ⟨hauth, prop, hprop, _, hallowed, h⟩ := h
    refine ⟨hauth, ⟨prop, hprop, checkCanceler_enabled.mp hallowed⟩, ?_⟩
    split at h
    · next row hrow => exact Option.isSome_iff_exists.mpr ⟨row, hrow⟩
    · simp only [bind_eq_ok, check_eq_ok, exists_const] at h
      have hnone := hold proposer name
      rw [show (s.setProposals proposer _).oldApprovals = s.oldApprovals
        from rfl, hnone] at h
      exact absurd h.1 (by simp)
  · rintro ⟨hauth, ⟨prop, hprop, hallowed⟩, hrow⟩
    obtain ⟨row, hrow⟩ := Option.isSome_iff_exists.mp hrow
    have hfind : (s.approvals proposer).find name = some row := hrow
    have hfound : (s.proposals proposer).find name = some prop := hprop
    have hkept : ∀ tbl, ((s.setProposals proposer tbl).approvals
        proposer).find name = some row := fun _ => hfind
    simp only [Succeeds, cancel, bind_eq_ok, Ctx.requireAuth_eq_ok,
      tableGet_eq_ok, exists_const, hfound, hkept, pure_eq_ok]
    exact ⟨_, hauth, prop, rfl, (), checkCanceler_enabled.mpr hallowed, rfl⟩

/-- Every check of `exec` is one of what it needs. -/
theorem exec_enabled (hold : s.NoOld) {executer : Name} :
    Succeeds (exec host ctx s proposer name executer) ↔
      s.Enabled host ctx (.exec proposer name executer) := by
  constructor
  · rintro ⟨⟨s', x⟩, h⟩
    obtain ⟨⟨prop, row, hprop, hrow, htrx, hprovided⟩, _⟩ := exec_ok h hold
    obtain ⟨hauth, _, _, hneeds⟩ := exec_sent h
    simp only [exec, unpackExpiration, bind_eq_ok, orStop_eq_ok,
      Ctx.requireAuth_eq_ok, tableGet_eq_ok, check_eq_ok, exists_const] at h
    obtain ⟨_, prop', hprop', expiration, hheader, htimely, _⟩ := h
    obtain rfl : prop' = prop := Option.some.inj (hprop'.symm.trans hprop)
    rw [htrx, hprovided] at hneeds
    exact ⟨hauth, prop', row, hprop, hrow, ⟨expiration, hheader, htimely⟩,
      hneeds⟩
  · rintro ⟨hauth, prop, row, hprop, hrow, ⟨expiration, hheader, htimely⟩,
      hneeds⟩
    have hfind : (s.approvals proposer).find name = some row := hrow
    have hfound : (s.proposals proposer).find name = some prop := hprop
    have htake : takeApprovals s proposer name = .ok
        (s.setApprovals proposer ((s.approvals proposer).erase name),
          row.standing s) := by
      unfold takeApprovals
      simp only [hfind]
      rfl
    simp only [Succeeds, exec, unpackExpiration, bind_eq_ok, orStop_eq_ok,
      Ctx.requireAuth_eq_ok, tableGet_eq_ok, check_eq_ok, pure_eq_ok,
      exists_const, hfound, htake]
    exact ⟨_, hauth, prop, rfl, expiration, hheader, htimely, _, rfl, hneeds,
      rfl⟩

theorem invalidate_enabled {account : Name} :
    Succeeds (invalidate ctx s account) ↔
      s.Enabled host ctx (.invalidate account) := by
  constructor
  · rintro ⟨s', h⟩
    simp only [invalidate, bind_eq_ok, Ctx.requireAuth_eq_ok] at h
    exact h.choose_spec.1
  · intro hauth
    have hauth' : ctx.HasAuth account := hauth
    cases hfind : s.invalidations.find account with
    | none =>
        simp only [Succeeds, invalidate, bind_eq_ok, Ctx.requireAuth_eq_ok,
          hfind, emplace_eq_ok, pure_eq_ok, exists_const]
        exact ⟨_, hauth', _, ⟨trivial, rfl⟩, rfl⟩
    | some row =>
        have hkey : row.account = account := KeyedTable.key_of_find hfind
        simp only [Succeeds, invalidate, bind_eq_ok, Ctx.requireAuth_eq_ok,
          hfind, modify_eq_ok, pure_eq_ok, exists_const]
        exact ⟨_, hauth', _, ⟨row, rfl, hkey, rfl⟩, rfl⟩

end Enabled

/-- **When an action succeeds.** -/
theorem apply_enabled {host : MultisigHost} {ctx : MultisigCtx}
    {s : MultisigState} (hold : s.NoOld) (a : MultisigAction) :
    Succeeds (apply host ctx s a) ↔ s.Enabled host ctx a := by
  have hpair : ∀ {α β : Type} {x : Except Abort α} {f : α → β},
      Succeeds (x >>= fun y => pure (f y)) ↔ Succeeds x := by
    intro α β x f
    cases x with
    | ok y => exact ⟨fun _ => succeeds_ok, fun _ => succeeds_pure⟩
    | error e => exact Iff.of_eq (by simp [Succeeds, Bind.bind, Except.bind])
  cases a with
  | propose proposer name requested trx => exact hpair.trans propose_enabled
  | approve proposer name level hash =>
      exact hpair.trans (approve_enabled hold)
  | unapprove proposer name level => exact hpair.trans (unapprove_enabled hold)
  | cancel proposer name canceler => exact hpair.trans (cancel_enabled hold)
  | exec proposer name executer => exact hpair.trans (exec_enabled hold)
  | invalidate account => exact hpair.trans invalidate_enabled

end Multisig

/-! ## What a proposal depends on -/

/-- The proposal that an action names. -/
def MultisigAction.target : MultisigAction → Option (Name × Name)
  | .propose proposer name _ _ => some (proposer, name)
  | .approve proposer name _ _ => some (proposer, name)
  | .unapprove proposer name _ => some (proposer, name)
  | .cancel proposer name _ => some (proposer, name)
  | .exec proposer name _ => some (proposer, name)
  | .invalidate _ => none

/-- An action counts for a proposal if it names it or invalidates approvals. -/
def MultisigAction.concerns (proposer name : Name) (a : MultisigAction) :
    Bool :=
  a.target = none ∨ a.target = some (proposer, name)

/-- Two states that agree on a proposal and on the invalidations. -/
structure MultisigState.Similar (proposer name : Name) (s t : MultisigState) :
    Prop where
  proposal : t.proposalOf proposer name = s.proposalOf proposer name
  approvals : t.approvalsOf proposer name = s.approvalsOf proposer name
  invalidations : t.invalidations = s.invalidations
  noOld : s.NoOld ∧ t.NoOld

section Agreement

variable {s s' t t' : MultisigState} {proposer name q m : Name}
  {prop : Option Proposal} {apps : Option ApprovalsInfo}

theorem MultisigState.Similar.stands (h : s.Similar proposer name t) :
    Multisig.stands t = Multisig.stands s := by
  funext p
  unfold Multisig.stands
  rw [h.invalidations]

/-- What an action leaves of the proposal it names follows from what it was. -/
theorem Wrote.similar (hst : s.Similar proposer name t)
    (hs : Wrote s s' proposer name prop apps)
    (ht : Wrote t t' proposer name prop apps) :
    s'.Similar proposer name t' where
  proposal := by rw [hs.proposals, ht.proposals, if_pos ⟨rfl, rfl⟩,
    if_pos ⟨rfl, rfl⟩]
  approvals := by rw [hs.approvals, ht.approvals, if_pos ⟨rfl, rfl⟩,
    if_pos ⟨rfl, rfl⟩]
  invalidations := by
    rw [hs.invalidations, ht.invalidations, hst.invalidations]
  noOld := by
    refine ⟨fun p n => ?_, fun p n => ?_⟩
    · rw [hs.oldApprovals]
      exact hst.noOld.1 p n
    · rw [ht.oldApprovals]
      exact hst.noOld.2 p n

/-- An action that names another proposal changes nothing of this one. -/
theorem Wrote.aside (hst : s.Similar proposer name t)
    (hs : Wrote s s' q m prop apps) (hne : (q, m) ≠ (proposer, name)) :
    s'.Similar proposer name t := by
  have hother : ¬ (proposer = q ∧ name = m) := by
    rintro ⟨rfl, rfl⟩
    exact hne rfl
  constructor
  · rw [hs.proposals, if_neg hother, hst.proposal]
  · rw [hs.approvals, if_neg hother, hst.approvals]
  · rw [hs.invalidations, hst.invalidations]
  · refine ⟨fun p n => ?_, hst.noOld.2⟩
    rw [hs.oldApprovals]
    exact hst.noOld.1 p n

end Agreement

namespace Multisig

variable {host : MultisigHost} {ctx : MultisigCtx} {s s' t : MultisigState}
  {proposer name : Name} {a : MultisigAction} {x : Option Execution}

/-- What an action needs can be told from the rows of its proposal. -/
theorem enabled_similar (hst : s.Similar proposer name t)
    (ha : a.concerns proposer name = true) :
    t.Enabled host ctx a ↔ s.Enabled host ctx a := by
  cases a with
  | invalidate account => exact Iff.rfl
  | _ =>
      simp only [MultisigAction.concerns, MultisigAction.target, reduceCtorEq,
        Option.some.injEq, Prod.mk.injEq, false_or, decide_eq_true_eq] at ha
      obtain ⟨rfl, rfl⟩ := ha
      simp only [MultisigState.Enabled, ApprovalsInfo.standing, hst.proposal,
        hst.approvals, hst.stands]

/-- An action that names a proposal writes nothing else. -/
theorem apply_target (hold : s.NoOld)
    (h : apply host ctx s a = .ok (s', x)) {q m : Name}
    (ha : a.target = some (q, m)) : ∃ prop apps, Wrote s s' q m prop apps := by
  cases a with
  | invalidate account => cases ha
  | propose p n requested trx =>
      cases ha
      simp only [apply, bind_eq_ok, pure_eq_ok, Prod.mk.injEq] at h
      obtain ⟨_, hrun, rfl, _⟩ := h
      exact ⟨_, _, propose_ok hrun⟩
  | approve p n level hash =>
      cases ha
      simp only [apply, bind_eq_ok, pure_eq_ok, Prod.mk.injEq] at h
      obtain ⟨_, hrun, rfl, _⟩ := h
      obtain ⟨_, _, _, _, _, hwrote⟩ := approve_ok hrun hold
      exact ⟨_, _, hwrote⟩
  | unapprove p n level =>
      cases ha
      simp only [apply, bind_eq_ok, pure_eq_ok, Prod.mk.injEq] at h
      obtain ⟨_, hrun, rfl, _⟩ := h
      obtain ⟨_, _, _, hwrote⟩ := unapprove_ok hrun hold
      exact ⟨_, _, hwrote⟩
  | cancel p n canceler =>
      cases ha
      simp only [apply, bind_eq_ok, pure_eq_ok, Prod.mk.injEq] at h
      obtain ⟨_, hrun, rfl, _⟩ := h
      exact ⟨_, _, cancel_ok hrun hold⟩
  | exec p n executer =>
      cases ha
      simp only [apply, bind_eq_ok, pure_eq_ok, Prod.mk.injEq] at h
      obtain ⟨⟨_, _⟩, hrun, rfl, _⟩ := h
      exact ⟨_, _, (exec_ok hrun hold).2⟩

/-- **An action does the same to a proposal in states that agree on it.** -/
theorem apply_similar (hst : s.Similar proposer name t)
    (ha : a.concerns proposer name = true)
    (h : apply host ctx s a = .ok (s', x)) :
    ∃ t', apply host ctx t a = .ok (t', x) ∧
      s'.Similar proposer name t' := by
  obtain ⟨hold, hold'⟩ := hst.noOld
  obtain ⟨⟨t', y⟩, ht⟩ : Succeeds (apply host ctx t a) := by
    rw [apply_enabled hold', enabled_similar hst ha, ← apply_enabled hold]
    exact ⟨_, h⟩
  suffices hsame : y = x ∧ s'.Similar proposer name t' from
    ⟨t', hsame.1 ▸ ht, hsame.2⟩
  simp only [MultisigAction.concerns, decide_eq_true_eq] at ha
  cases a with
  | propose p n requested trx =>
      obtain ⟨rfl, rfl⟩ : p = proposer ∧ n = name := by
        simpa [MultisigAction.target] using ha
      simp only [apply, bind_eq_ok, pure_eq_ok, Prod.mk.injEq] at h ht
      obtain ⟨_, hrun, rfl, rfl⟩ := h
      obtain ⟨_, hrun', rfl, rfl⟩ := ht
      exact ⟨rfl, (propose_ok hrun).similar hst (propose_ok hrun')⟩
  | approve p n level hash =>
      obtain ⟨rfl, rfl⟩ : p = proposer ∧ n = name := by
        simpa [MultisigAction.target] using ha
      simp only [apply, bind_eq_ok, pure_eq_ok, Prod.mk.injEq] at h ht
      obtain ⟨_, hrun, rfl, rfl⟩ := h
      obtain ⟨_, hrun', rfl, rfl⟩ := ht
      obtain ⟨_, _, row, hrow, _, hwrote⟩ := approve_ok hrun hold
      obtain ⟨_, _, row', hrow', _, hwrote'⟩ := approve_ok hrun' hold'
      rw [hst.approvals, hrow] at hrow'
      cases hrow'
      rw [hst.proposal] at hwrote'
      exact ⟨rfl, hwrote.similar hst hwrote'⟩
  | unapprove p n level =>
      obtain ⟨rfl, rfl⟩ : p = proposer ∧ n = name := by
        simpa [MultisigAction.target] using ha
      simp only [apply, bind_eq_ok, pure_eq_ok, Prod.mk.injEq] at h ht
      obtain ⟨_, hrun, rfl, rfl⟩ := h
      obtain ⟨_, hrun', rfl, rfl⟩ := ht
      obtain ⟨row, hrow, _, hwrote⟩ := unapprove_ok hrun hold
      obtain ⟨row', hrow', _, hwrote'⟩ := unapprove_ok hrun' hold'
      rw [hst.approvals, hrow] at hrow'
      cases hrow'
      rw [hst.proposal] at hwrote'
      exact ⟨rfl, hwrote.similar hst hwrote'⟩
  | cancel p n canceler =>
      obtain ⟨rfl, rfl⟩ : p = proposer ∧ n = name := by
        simpa [MultisigAction.target] using ha
      simp only [apply, bind_eq_ok, pure_eq_ok, Prod.mk.injEq] at h ht
      obtain ⟨_, hrun, rfl, rfl⟩ := h
      obtain ⟨_, hrun', rfl, rfl⟩ := ht
      exact ⟨rfl, (cancel_ok hrun hold).similar hst (cancel_ok hrun' hold')⟩
  | exec p n executer =>
      obtain ⟨rfl, rfl⟩ : p = proposer ∧ n = name := by
        simpa [MultisigAction.target] using ha
      simp only [apply, bind_eq_ok, pure_eq_ok, Prod.mk.injEq] at h ht
      obtain ⟨⟨_, u⟩, hrun, rfl, rfl⟩ := h
      obtain ⟨⟨_, v⟩, hrun', rfl, rfl⟩ := ht
      obtain ⟨⟨prop, row, hprop, hrow, htrx, hlevels⟩, hwrote⟩ :=
        exec_ok hrun hold
      obtain ⟨⟨prop', row', hprop', hrow', htrx', hlevels'⟩, hwrote'⟩ :=
        exec_ok hrun' hold'
      obtain ⟨_, hpayer, hid, _⟩ := exec_sent hrun
      obtain ⟨_, hpayer', hid', _⟩ := exec_sent hrun'
      rw [hst.proposal, hprop] at hprop'
      rw [hst.approvals, hrow] at hrow'
      cases hprop'
      cases hrow'
      have hsame : v = u := by
        rw [Execution.mk.injEq]
        exact ⟨by rw [hlevels, hlevels', hst.stands], hid'.trans hid.symm,
          hpayer'.trans hpayer.symm, htrx'.trans htrx.symm⟩
      exact ⟨congrArg some hsame, hwrote.similar hst hwrote'⟩
  | invalidate account =>
      simp only [apply, bind_eq_ok, pure_eq_ok, Prod.mk.injEq] at h ht
      obtain ⟨_, hrun, rfl, rfl⟩ := h
      obtain ⟨_, hrun', rfl, rfl⟩ := ht
      rw [invalidate_ok hrun, invalidate_ok hrun']
      refine ⟨rfl, hst.proposal, hst.approvals, ?_, hst.noOld⟩
      show t.invalidations.put _ = s.invalidations.put _
      rw [hst.invalidations]

end Multisig

/-! ## Calls -/

/-- A call that succeeds, with what it executes. -/
def MultisigState.Performs (host : MultisigHost) (s : MultisigState)
    (l : MultisigCall × Option Execution) (s' : MultisigState) : Prop :=
  s.perform host l.1 = .ok (s', l.2)

namespace MultisigState

variable {host : MultisigHost} {s s' t : MultisigState} {call : MultisigCall}
  {x : Option Execution} {proposer name : Name}

theorem perform_eq_ok :
    s.perform host call = .ok (s', x) ↔ s.slot ≤ call.ctx.slot ∧
      ∃ s₁, Multisig.apply host call.ctx s call.action = .ok (s₁, x) ∧
        s' = { s₁ with slot := call.ctx.slot } := by
  simp only [perform, bind_eq_ok, require_eq_ok, pure_eq_ok, exists_const,
    Prod.mk.injEq, Prod.exists]
  constructor
  · rintro ⟨hslot, s₁, y, hrun, rfl, rfl⟩
    exact ⟨hslot, s₁, hrun, rfl⟩
  · rintro ⟨hslot, s₁, hrun, rfl⟩
    exact ⟨hslot, s₁, x, hrun, rfl, rfl⟩

/-- Agreement on a proposal, in a state that is not later. -/
def Agrees (proposer name : Name) (s t : MultisigState) : Prop :=
  s.Similar proposer name t ∧ t.slot ≤ s.slot

/-- A call does the same in a state that agrees on what it concerns. -/
theorem Similar.performs (hst : s.Similar proposer name t)
    (hslot : t.slot ≤ call.ctx.slot)
    (hcall : call.action.concerns proposer name = true)
    (h : s.perform host call = .ok (s', x)) :
    ∃ t', t.perform host call = .ok (t', x) ∧
      Agrees proposer name s' t' := by
  obtain ⟨_, s₁, hrun, rfl⟩ := perform_eq_ok.mp h
  obtain ⟨t₁, hrun', hsame⟩ := Multisig.apply_similar hst hcall hrun
  exact ⟨_, perform_eq_ok.mpr ⟨hslot, t₁, hrun', rfl⟩,
    ⟨hsame.proposal, hsame.approvals, hsame.invalidations, hsame.noOld⟩,
    UInt32.le_refl _⟩

/-- **A proposal is a part of the state that only the calls that concern it
touch.** -/
theorem separates (host : MultisigHost) (proposer name : Name) :
    Separates (Performs host) (fun l => l.1.action.concerns proposer name)
      (Agrees proposer name) where
  aside {s l s' t} hcall hagree h := by
    obtain ⟨hst, hslot⟩ := hagree
    obtain ⟨hle, s₁, hrun, rfl⟩ := perform_eq_ok.mp h
    simp only [MultisigAction.concerns, decide_eq_false_iff_not,
      not_or] at hcall
    obtain ⟨⟨q, m⟩, htarget⟩ := Option.ne_none_iff_exists'.mp hcall.1
    obtain ⟨_, _, hwrote⟩ := Multisig.apply_target hst.noOld.1 hrun htarget
    have hsame := hwrote.aside hst
      (fun heq => hcall.2 (htarget.trans (congrArg some heq)))
    exact ⟨⟨hsame.proposal, hsame.approvals, hsame.invalidations,
      hsame.noOld⟩, UInt32.le_trans hslot hle⟩
  acts {s l s' t} hcall hagree h := by
    obtain ⟨hle, _⟩ := perform_eq_ok.mp h
    exact hagree.1.performs (UInt32.le_trans hagree.2 hle) hcall h

/-- A call with the outcome that it is said to have. -/
def performed (host : MultisigHost) (s : MultisigState)
    (l : MultisigCall × Option Execution) : Except Abort MultisigState := do
  let (s', x) ← s.perform host l.1
  require (x = l.2) .notDue
  return s'

theorem Performs.of_foldlM {ls : List (MultisigCall × Option Execution)}
    (h : ls.foldlM (performed host) s = .ok t) :
    Run (Performs host) s ls t := by
  refine (Run.of_foldlM h).mono (fun _ => True) ?_ (fun _ _ => trivial)
  intro u l v _ hstep
  simp only [performed, bind_eq_ok, require_eq_ok, pure_eq_ok,
    exists_const] at hstep
  obtain ⟨⟨v', x⟩, hrun, rfl, rfl⟩ := hstep
  exact hrun

theorem agrees_genesis (proposer name : Name) :
    Agrees proposer name genesis genesis :=
  ⟨⟨rfl, rfl, rfl, fun _ _ => rfl, fun _ _ => rfl⟩, UInt32.le_refl _⟩

theorem Performs.unique {l : MultisigCall × Option Execution}
    {t' : MultisigState} (h : s.Performs host l t) (h' : s.Performs host l t') :
    t = t' :=
  congrArg Prod.fst (Except.ok.inj (h.symm.trans h'))

end MultisigState

/-! ## The host -/

/-- The host takes what an action sends: an execution sends the transaction of
its proposal, whose bytes the host must accept and whose id must be free. -/
def MultisigState.Sendable (out : DeferredHost) (ctx : MultisigCtx)
    (w : World MultisigState ℕ DeferredTransaction) : MultisigAction → Prop
  | .exec proposer name _ => ∃ prop due,
      w.sender.proposalOf proposer name = some prop ∧
      out.schedule ctx.currentTimePoint prop.packedTransaction = .ok due ∧
      w.pending.find (senderId proposer name.value.toNat) = none
  | _ => True

section Host

variable {host : MultisigHost} {out : DeferredHost} {call : MultisigCall}
  {w w' : World MultisigState ℕ DeferredTransaction}
  {l : Label MultisigCall ℕ DeferredTransaction}

/-- A call that has been made was enabled, and the host took what it sent. -/
theorem MultisigState.sendable_of_step (hold : w.sender.NoOld)
    (hcall : l.act = some call)
    (h : Step (MultisigState.Sends host out) w l w') :
    Succeeds (w.sender.perform host call) ∧
      Sendable out call.ctx w call.action := by
  cases l with
  | delivered now m => cases hcall
  | dropped m => cases hcall
  | quiet d =>
      obtain rfl : d = call := Option.some.inj hcall
      have hperform : w.sender.perform host d = .ok (w'.sender, none) := h.1
      obtain ⟨_, s₁, happly, _⟩ := perform_eq_ok.mp hperform
      refine ⟨⟨_, hperform⟩, ?_⟩
      obtain ⟨_, _, _, _, _, hx, _⟩ | ⟨hne, _⟩ :=
        Multisig.apply_executes happly
      · cases hx
      · unfold Sendable
        split
        · next haction => exact absurd haction (hne _ _ _)
        · trivial
  | sent d m =>
      obtain rfl : d = call := Option.some.inj hcall
      obtain ⟨hsends, hfree, _⟩ := h
      obtain ⟨p, n, executer, x, s₁, haction, hexec, _, hkey, hdue⟩ :=
        hsends.executes
      obtain ⟨_, hperform, _⟩ := hsends
      obtain ⟨⟨prop, _, hprop, _, htrx, _⟩, _⟩ := Multisig.exec_ok hexec hold
      refine ⟨⟨_, hperform⟩, ?_⟩
      rw [haction]
      exact ⟨prop, m.due, hprop, htrx ▸ hdue, hkey ▸ hfree⟩

/-- A call that is enabled can be made where the host takes what it sends. -/
theorem MultisigState.step_of_sendable (hold : w.sender.NoOld)
    (h : Succeeds (w.sender.perform host call))
    (hsend : Sendable out call.ctx w call.action) :
    ∃ (l : Label MultisigCall ℕ DeferredTransaction) (w' : World _ _ _),
      l.act = some call ∧ Step (MultisigState.Sends host out) w l w' := by
  obtain ⟨⟨s', o⟩, hperform⟩ := h
  obtain ⟨_, s₁, happly, rfl⟩ := perform_eq_ok.mp hperform
  obtain ⟨p, n, executer, x, haction, rfl, hexec⟩ | ⟨_, rfl⟩ :=
    Multisig.apply_executes happly
  · rw [haction] at hsend
    obtain ⟨prop, due, hprop, hdue, hfree⟩ := hsend
    obtain ⟨⟨prop', _, hprop', _, htrx, _⟩, _⟩ := Multisig.exec_ok hexec hold
    obtain rfl : prop' = prop := Option.some.inj (hprop'.symm.trans hprop)
    obtain ⟨_, _, hid, _⟩ := Multisig.exec_sent hexec
    have hsent : out.sendDeferred call.ctx.toCtx x.deferred =
        .ok ⟨x.senderId, due, x.deferred⟩ :=
      DeferredHost.sendDeferred_eq_ok.mpr
        ⟨(congrArg (out.schedule _) htrx).trans hdue, rfl, rfl⟩
    exact ⟨.sent call ⟨x.senderId, due, x.deferred⟩, ⟨_, w.pending.put _⟩, rfl,
      ⟨x, hperform, hsent⟩, hid ▸ hfree, rfl⟩
  · exact ⟨.quiet call, ⟨_, w.pending⟩, rfl, hperform, rfl⟩

end Host

/-- **When a call succeeds.**  In every run of the calls and of the host a call
can be made if and only if it is not earlier than the last one, the rows of its
proposal, the invalidations and the signatures of the call meet what its action
needs, and the host takes the transaction that it sends, if it does: it accepts
the bytes, and no transaction of this proposal is in flight. -/
theorem multisig_enabled_iff {host : MultisigHost} {out : DeferredHost}
    {ls : List (Label MultisigCall ℕ DeferredTransaction)}
    {w : World MultisigState ℕ DeferredTransaction}
    (hrun : Run (Step (MultisigState.Sends host out)) MultisigState.opening
      ls w) (call : MultisigCall) :
    (∃ l w', l.act = some call ∧
      Step (MultisigState.Sends host out) w l w') ↔
    w.sender.slot ≤ call.ctx.slot ∧
      w.sender.Enabled host call.ctx call.action ∧
      MultisigState.Sendable out call.ctx w call.action := by
  have hold := (History.run (multisig_acts hrun)).noOld
  have hperforms : Succeeds (w.sender.perform host call) ↔
      w.sender.slot ≤ call.ctx.slot ∧
        w.sender.Enabled host call.ctx call.action := by
    rw [← Multisig.apply_enabled hold]
    constructor
    · rintro ⟨⟨s', x⟩, h⟩
      obtain ⟨hslot, s₁, hs₁, _⟩ := MultisigState.perform_eq_ok.mp h
      exact ⟨hslot, _, hs₁⟩
    · rintro ⟨hslot, ⟨s₁, x⟩, hs₁⟩
      exact ⟨_, MultisigState.perform_eq_ok.mpr ⟨hslot, s₁, hs₁, rfl⟩⟩
  rw [← and_assoc, ← hperforms]
  constructor
  · rintro ⟨l, w', hcall, hstep⟩
    exact MultisigState.sendable_of_step hold hcall hstep
  · rintro ⟨hperform, hsend⟩
    exact MultisigState.step_of_sendable hold hperform hsend

/-- After the sample calls the proposal can be executed, since nothing is in
flight under its id. -/
theorem multisig_enabled_sample :
    ∃ (out : DeferredHost) (w : World MultisigState ℕ DeferredTransaction),
    w.sender.Enabled sampleHost executingCall.ctx executingCall.action ∧
    MultisigState.Sendable out executingCall.ctx w executingCall.action := by
  obtain ⟨s, s', m, hrun, hsent, _⟩ :=
    executingCall_sent ⟨fun now _ => .ok now⟩ (fun _ _ => rfl)
  exact ⟨_, _, ((multisig_enabled_iff hrun executingCall).mp
    ⟨_, _, rfl, hsent⟩).2⟩

/-- **Proposals are isolated.**  Of every run the calls that name a proposal and
the invalidations are a run of their own, with the same executions, and it
leaves the proposal as it is: what is called next for the proposal has the same
outcome in either state.  Runs that have these calls in common, in whatever
order the others come, agree on the proposal. -/
theorem proposals_isolated {host : MultisigHost}
    {ls : List (MultisigCall × Option Execution)} {s : MultisigState}
    (hrun : Run (MultisigState.Performs host) .genesis ls s)
    (proposer name : Name) :
    (∃ t, Run (MultisigState.Performs host) .genesis
        (ls.filter (fun l => l.1.action.concerns proposer name)) t ∧
      s.Similar proposer name t ∧
      ∀ call x, call.action.concerns proposer name = true →
        s.slot ≤ call.ctx.slot →
        ((∃ s', s.perform host call = .ok (s', x)) ↔
          ∃ t', t.perform host call = .ok (t', x))) ∧
    ∀ ds u, Run (MultisigState.Performs host) .genesis ds u →
      ds.filter (fun l => l.1.action.concerns proposer name) =
        ls.filter (fun l => l.1.action.concerns proposer name) →
      u.proposalOf proposer name = s.proposalOf proposer name ∧
      u.approvalsOf proposer name = s.approvalsOf proposer name := by
  have hsep := MultisigState.separates host proposer name
  have hgenesis := MultisigState.agrees_genesis proposer name
  constructor
  · obtain ⟨t, ht, hst, hslot⟩ := hrun.project hsep hgenesis
    have hts : t.Similar proposer name s :=
      ⟨hst.proposal.symm, hst.approvals.symm, hst.invalidations.symm,
        hst.noOld.symm⟩
    refine ⟨t, ht, hst, fun call x hcall hle => ⟨?_, ?_⟩⟩
    · rintro ⟨s', hs'⟩
      obtain ⟨t', ht', _⟩ :=
        hst.performs (UInt32.le_trans hslot hle) hcall hs'
      exact ⟨t', ht'⟩
    · rintro ⟨t', ht'⟩
      obtain ⟨s', hs', _⟩ := hts.performs hle hcall ht'
      exact ⟨s', hs'⟩
  · intro ds u hu hcalls
    obtain ⟨v, ⟨hsame, _⟩, hsame', _⟩ := hu.interleaved
      (fun _ _ _ _ h h' => h.unique h') hsep hgenesis hrun hcalls
    exact ⟨hsame.proposal.symm.trans hsame'.proposal,
      hsame.approvals.symm.trans hsame'.approvals⟩

/-- The stake account proposes and cancels among the sample calls. -/
def mixedCalls : List MultisigCall :=
  sampleCall stakeAccount 1 []
      (.propose stakeAccount stakeAccount [systemLevel] [3]) ::
    approvedCalls ++ [sampleCall stakeAccount 6 []
      (.cancel stakeAccount stakeAccount stakeAccount)]

/-- What it does leaves the proposal as it is. -/
theorem proposals_isolated_sample : ∃ s t,
    Run (MultisigState.Performs sampleHost) .genesis
      (mixedCalls.map (·, none)) s ∧
    Run (MultisigState.Performs sampleHost) .genesis
      (approvedCalls.map (·, none)) t ∧
    t.approvalsOf tokenAccount tokenAccount =
      s.approvalsOf tokenAccount tokenAccount ∧
    (s.approvalsOf tokenAccount tokenAccount).isSome = true := by
  have hsample : Finishes ((mixedCalls.map (·, none)).foldlM
      (MultisigState.performed sampleHost) .genesis)
      (fun s => (s.approvalsOf tokenAccount tokenAccount).isSome = true) := by
    decide +kernel
  obtain ⟨s, hcalls, hrow⟩ := hsample
  have hrun := MultisigState.Performs.of_foldlM hcalls
  obtain ⟨⟨t, ht, hst, _⟩, _⟩ :=
    proposals_isolated hrun tokenAccount tokenAccount
  have hfilter : (mixedCalls.map (·, (none : Option Execution))).filter
      (fun l => l.1.action.concerns tokenAccount tokenAccount) =
      approvedCalls.map (·, none) := rfl
  rw [hfilter] at ht
  exact ⟨s, t, hrun, ht, hst.approvals, hrow⟩

end Inery
