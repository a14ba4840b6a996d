import IneryContracts.LabelledRun
import IneryContracts.MultisigContract

/-!
# Executions rest on approvals

Every approval stored in the tables was given after the latest proposal of its
name, and the times of invalidations are the latest of each account.  Both are
statements about the history that has led to the tables; they are kept by every
action, and an execution reads them off.
-/

namespace Inery

open GuardedStep LabelledRun

namespace MultisigState

variable (s : MultisigState)

/-- The proposal of a proposer under a name. -/
def proposalOf (proposer name : Name) : Option Proposal :=
  (s.proposals proposer).find name

/-- The approvals of a proposal. -/
def approvalsOf (proposer name : Name) : Option ApprovalsInfo :=
  (s.approvals proposer).find name

theorem proposalOf_set (proposer : Name)
    (tbl : KeyedTable Proposal.proposalName) (q n : Name) :
    (s.setProposals proposer tbl).proposalOf q n =
      if q = proposer then tbl.find n else s.proposalOf q n := by
  unfold proposalOf setProposals
  by_cases hq : q = proposer
  · subst hq
    simp
  · simp [hq]

theorem approvalsOf_set (proposer : Name)
    (tbl : KeyedTable ApprovalsInfo.proposalName) (q n : Name) :
    (s.setApprovals proposer tbl).approvalsOf q n =
      if q = proposer then tbl.find n else s.approvalsOf q n := by
  unfold approvalsOf setApprovals
  by_cases hq : q = proposer
  · subst hq
    simp
  · simp [hq]

/-- No proposal is kept in the older table. -/
def NoOld : Prop := ∀ p n, (s.oldApprovals p).find n = none

end MultisigState

/-- What is stored for one proposal is replaced by `prop` and `apps`, and
nothing else is written. -/
structure Wrote (s s' : MultisigState) (proposer name : Name)
    (prop : Option Proposal) (apps : Option ApprovalsInfo) : Prop where
  proposals : ∀ q n, s'.proposalOf q n =
    if q = proposer ∧ n = name then prop else s.proposalOf q n
  approvals : ∀ q n, s'.approvalsOf q n =
    if q = proposer ∧ n = name then apps else s.approvalsOf q n
  oldApprovals : s'.oldApprovals = s.oldApprovals
  invalidations : s'.invalidations = s.invalidations

/-! ## What the actions write -/

namespace Multisig

variable {host : MultisigHost} {ctx : MultisigCtx} {s s' : MultisigState}
  {proposer name : Name} {level : PermissionLevel}

private theorem wrote_approvals {row : ApprovalsInfo}
    (hname : row.proposalName = name) :
    Wrote s (s.setApprovals proposer ((s.approvals proposer).put row))
      proposer name (s.proposalOf proposer name) (some row) where
  proposals q n := by
    split
    · next h => rw [h.1, h.2]; rfl
    · rfl
  approvals q n := by
    rw [MultisigState.approvalsOf_set, KeyedTable.find_put_of_key hname]
    by_cases hq : q = proposer
    · subst hq
      simp [MultisigState.approvalsOf]
    · simp [hq]
  oldApprovals := rfl
  invalidations := rfl

private theorem wrote_erased : Wrote s
    ((s.setProposals proposer ((s.proposals proposer).erase name)).setApprovals
      proposer ((s.approvals proposer).erase name)) proposer name none none
    where
  proposals q n := by
    show (s.setProposals proposer _).proposalOf q n = _
    rw [MultisigState.proposalOf_set, KeyedTable.find_erase]
    by_cases hq : q = proposer
    · subst hq
      simp [MultisigState.proposalOf]
    · simp [hq]
  approvals q n := by
    rw [MultisigState.approvalsOf_set, KeyedTable.find_erase]
    by_cases hq : q = proposer
    · subst hq
      simp [MultisigState.approvalsOf]
    · simp only [hq, if_false, false_and]
      rfl
  oldApprovals := rfl
  invalidations := rfl

theorem propose_ok {requested : List PermissionLevel} {trx : List UInt8}
    (h : propose host ctx s proposer name requested trx = .ok s') :
    Wrote s s' proposer name (some ⟨name, trx⟩) (some ⟨name,
      requested.map (fun level => ⟨level, 0⟩), []⟩) := by
  simp only [propose, bind_eq_ok, Ctx.requireAuth_eq_ok, check_eq_ok,
    emplace_eq_ok, pure_eq_ok, exists_const] at h
  obtain ⟨_, _, _, _, _, _, _, ⟨_, rfl⟩, _, ⟨_, rfl⟩, rfl⟩ := h
  refine ⟨fun q n => ?_, fun q n => ?_, rfl, rfl⟩
  · show (s.setProposals proposer _).proposalOf q n = _
    rw [MultisigState.proposalOf_set, KeyedTable.find_put]
    by_cases hq : q = proposer
    · subst hq
      simp [MultisigState.proposalOf]
    · simp [hq]
  · rw [MultisigState.approvalsOf_set, KeyedTable.find_put]
    by_cases hq : q = proposer
    · subst hq
      simp [MultisigState.approvalsOf]
    · simp only [hq, if_false, false_and]
      rfl

theorem approve_ok {proposalHash : Option (List UInt8)}
    (h : approve host ctx s proposer name level proposalHash = .ok s')
    (hold : s.NoOld) :
    level ∈ ctx.auths ∧
    (∀ hash, proposalHash = some hash → ∃ prop,
      s.proposalOf proposer name = some prop ∧
      host.sha256 prop.packedTransaction = hash) ∧
    ∃ row, s.approvalsOf proposer name = some row ∧
      (∃ r ∈ row.requestedApprovals, r.level = level) ∧
      Wrote s s' proposer name (s.proposalOf proposer name)
        (some (row.grant level ctx.currentTimePoint)) := by
  simp only [approve, bind_eq_ok, Ctx.requireAuthLevel_eq_ok,
    exists_const] at h
  obtain ⟨hauth, _, hhash, h⟩ := h
  refine ⟨hauth, ?_, ?_⟩
  · rintro hash rfl
    simp only [checkHash, bind_eq_ok, tableGet_eq_ok, check_eq_ok] at hhash
    exact hhash
  · split at h
    · next row hrow =>
        simp only [bind_eq_ok, check_eq_ok, modify_eq_ok, pure_eq_ok,
          exists_const] at h
        obtain ⟨hany, _, ⟨r, hr, hk, rfl⟩, rfl⟩ := h
        obtain rfl : r = row := Option.some.inj (hr.symm.trans hrow)
        refine ⟨r, hrow, ?_, wrote_approvals hk⟩
        simpa using hany
    · simp only [bind_eq_ok, tableGet_eq_ok] at h
      obtain ⟨_, hsome, _⟩ := h
      rw [hold proposer name] at hsome
      cases hsome

theorem unapprove_ok (h : unapprove ctx s proposer name level = .ok s')
    (hold : s.NoOld) :
    ∃ row, s.approvalsOf proposer name = some row ∧
      (∃ p ∈ row.providedApprovals, p.level = level) ∧
      Wrote s s' proposer name (s.proposalOf proposer name)
        (some (row.revoke level ctx.currentTimePoint)) := by
  simp only [unapprove, bind_eq_ok, Ctx.requireAuthLevel_eq_ok,
    exists_const] at h
  obtain ⟨_, h⟩ := h
  split at h
  · next row hrow =>
      simp only [bind_eq_ok, check_eq_ok, modify_eq_ok, pure_eq_ok,
        exists_const] at h
      obtain ⟨hany, _, ⟨r, hr, hk, rfl⟩, rfl⟩ := h
      obtain rfl : r = row := Option.some.inj (hr.symm.trans hrow)
      refine ⟨r, hrow, ?_, wrote_approvals hk⟩
      simpa using hany
  · simp only [bind_eq_ok, tableGet_eq_ok] at h
    obtain ⟨_, hsome, _⟩ := h
    rw [hold proposer name] at hsome
    cases hsome

theorem cancel_ok {canceler : Name}
    (h : cancel host ctx s proposer name canceler = .ok s')
    (hold : s.NoOld) : Wrote s s' proposer name none none := by
  simp only [cancel, bind_eq_ok, Ctx.requireAuth_eq_ok, tableGet_eq_ok,
    exists_const] at h
  obtain ⟨_, _, _, _, _, h⟩ := h
  split at h
  · cases h
    exact wrote_erased
  · simp only [bind_eq_ok, check_eq_ok, exists_const] at h
    have hsome : ((s.oldApprovals proposer).find name).isSome := h.1
    rw [hold proposer name] at hsome
    cases hsome

theorem exec_ok {executer : Name} {x : Execution}
    (h : exec host ctx s proposer name executer = .ok (s', x))
    (hold : s.NoOld) :
    (∃ prop row, s.proposalOf proposer name = some prop ∧
      s.approvalsOf proposer name = some row ∧
      x.packedTransaction = prop.packedTransaction ∧
      x.provided = (row.providedApprovals.filter (stands s)).map (·.level)) ∧
    Wrote s s' proposer name none none := by
  simp only [exec, bind_eq_ok, Ctx.requireAuth_eq_ok, tableGet_eq_ok,
    check_eq_ok, pure_eq_ok, Prod.mk.injEq, exists_const] at h
  obtain ⟨_, prop, hprop, _, _, _, ⟨s₁, approvals⟩, htake, _, rfl, rfl⟩ := h
  unfold takeApprovals at htake
  dsimp only at htake
  split at htake
  · next row hrow =>
      cases htake
      exact ⟨⟨prop, row, hprop, hrow, rfl, rfl⟩, wrote_erased⟩
  · simp only [bind_eq_ok, tableGet_eq_ok] at htake
    obtain ⟨_, hsome, _⟩ := htake
    rw [hold proposer name] at hsome
    cases hsome

theorem invalidate_ok {account : Name}
    (h : invalidate ctx s account = .ok s') : s' = { s with
      invalidations := s.invalidations.put
        ⟨account, ctx.currentTimePoint⟩ } := by
  simp only [invalidate, bind_eq_ok, Ctx.requireAuth_eq_ok,
    exists_const] at h
  obtain ⟨_, h⟩ := h
  split at h
  · simp only [bind_eq_ok, emplace_eq_ok, pure_eq_ok] at h
    obtain ⟨_, ⟨_, rfl⟩, rfl⟩ := h
    rfl
  · simp only [bind_eq_ok, modify_eq_ok, pure_eq_ok] at h
    obtain ⟨_, ⟨row, _, hk, rfl⟩, rfl⟩ := h
    obtain rfl : row.account = account := hk
    rfl

end Multisig

/-! ## Histories -/

/-- One call of the contract. -/
structure MultisigCall where
  ctx : MultisigCtx
  action : MultisigAction

/-- Run one call; time does not run backwards. -/
def MultisigState.perform (host : MultisigHost) (s : MultisigState)
    (call : MultisigCall) :
    Except Abort (MultisigState × Option Execution) := do
  require (s.slot ≤ call.ctx.slot) .notDue
  let (s, x) ← Multisig.apply host call.ctx s call.action
  return ({ s with slot := call.ctx.slot }, x)

/-- A call that succeeds. -/
def MultisigStep (host : MultisigHost) (s : MultisigState)
    (call : MultisigCall) (s' : MultisigState) : Prop :=
  ∃ x, s.perform host call = .ok (s', x)

/-- Performing the calls one after the other is a run. -/
theorem MultisigStep.run {host : MultisigHost} {calls : List MultisigCall}
    {s t : MultisigState} (h : calls.foldlM (fun (s : MultisigState) call =>
      (s.perform host call).map (·.1)) s = .ok t) :
    Run (MultisigStep host) s calls t := by
  refine (Run.of_foldlM h).mono (fun _ => True) ?_ (by simp)
  intro u call v _ hstep
  cases hperform : u.perform host call with
  | error d => simp [hperform, Except.map] at hstep
  | ok r =>
      rw [hperform] at hstep
      cases hstep
      exact ⟨r.2, hperform⟩

namespace MultisigCall

/-- The call proposes a transaction under the name. -/
def Proposes (c : MultisigCall) (proposer name : Name) : Prop :=
  ∃ requested trx, c.action = .propose proposer name requested trx

/-- The time of a call. -/
def time (c : MultisigCall) : ℤ := c.ctx.currentTimePoint

/-- The call has given the approval, under the authority of its level and, if
it carries a hash, for the transaction. -/
structure Grants (host : MultisigHost) (c : MultisigCall)
    (proposer name : Name) (trx : List UInt8) (p : Approval) : Prop where
  authorized : p.level ∈ c.ctx.auths
  time : p.time = c.time
  approves : ∃ hash, c.action = .approve proposer name p.level hash ∧
    ∀ h, hash = some h → host.sha256 trx = h

end MultisigCall

/-- The latest proposal under a name, and what has happened since. -/
structure Incarnation (calls : List MultisigCall) (proposer name : Name) where
  before : List MultisigCall
  ctx : MultisigCtx
  requested : List PermissionLevel
  trx : List UInt8
  after : List MultisigCall
  split : calls =
    before ++ ⟨ctx, .propose proposer name requested trx⟩ :: after
  latest : ∀ c ∈ after, ¬ c.Proposes proposer name

section Histories

variable {host : MultisigHost} {calls : List MultisigCall} {call : MultisigCall}
  {s s' : MultisigState} {proposer name : Name} {prop : Proposal}
  {apps : ApprovalsInfo}

/-- One more call that proposes nothing under the name. -/
def Incarnation.extend (I : Incarnation calls proposer name)
    (call : MultisigCall) (h : ¬ call.Proposes proposer name) :
    Incarnation (calls ++ [call]) proposer name where
  before := I.before
  ctx := I.ctx
  requested := I.requested
  trx := I.trx
  after := I.after ++ [call]
  split := (congrArg (· ++ [call]) I.split).trans (by simp)
  latest c hc := by
    rcases List.mem_append.mp hc with hc | hc
    · exact I.latest c hc
    · rw [List.mem_singleton.mp hc]
      exact h

/-- What is stored for a proposal agrees with its history: the levels are
among those requested, and every approval was given. -/
structure Tied (host : MultisigHost) (I : Incarnation calls proposer name)
    (prop : Proposal) (apps : ApprovalsInfo) : Prop where
  trx : prop.packedTransaction = I.trx
  requested : ∀ r ∈ apps.requestedApprovals, r.level ∈ I.requested
  provided : ∀ p ∈ apps.providedApprovals, p.level ∈ I.requested ∧
    ∃ c ∈ I.after, c.Grants host proposer name I.trx p

theorem Tied.extend {I : Incarnation calls proposer name}
    (h : Tied host I prop apps) (hcall : ¬ call.Proposes proposer name) :
    Tied host (I.extend call hcall) prop apps where
  trx := h.trx
  requested := h.requested
  provided p hp := by
    obtain ⟨hlevel, c, hc, hgrants⟩ := h.provided p hp
    exact ⟨hlevel, c, List.mem_append_left _ hc, hgrants⟩

/-- Nothing is stored under the name, or what is stored agrees with its
history. -/
def Live (host : MultisigHost) (calls : List MultisigCall)
    (proposer name : Name) (prop : Option Proposal)
    (apps : Option ApprovalsInfo) : Prop :=
  prop = none ∧ apps = none ∨
  ∃ p a, prop = some p ∧ apps = some a ∧
    ∃ I : Incarnation calls proposer name, Tied host I p a

/-- The tables agree with the calls that have led to them. -/
structure History (host : MultisigHost) (calls : List MultisigCall)
    (s : MultisigState) : Prop where
  slots : ∀ d ∈ calls, d.ctx.slot.toNat ≤ s.slot.toNat
  noOld : s.NoOld
  invalidated : ∀ d ∈ calls, ∀ a, d.action = .invalidate a →
    ∃ row, s.invalidations.find a = some row ∧
      d.time ≤ row.lastInvalidationTime
  live : ∀ p n, Live host calls p n (s.proposalOf p n) (s.approvalsOf p n)

theorem Live.extend {prop : Option Proposal} {apps : Option ApprovalsInfo}
    (h : Live host calls proposer name prop apps)
    (hcall : ¬ call.Proposes proposer name) :
    Live host (calls ++ [call]) proposer name prop apps := by
  rcases h with hnone | ⟨p, a, hp, ha, I, htied⟩
  · exact .inl hnone
  · exact .inr ⟨p, a, hp, ha, _, htied.extend hcall⟩

/-- A call that writes what is stored for one proposal, and is no
invalidation. -/
private theorem History.wrote {prop : Option Proposal}
    {apps : Option ApprovalsInfo} (h : History host calls s)
    (hw : Wrote s s' proposer name prop apps)
    (hslot : s.slot.toNat ≤ call.ctx.slot.toNat)
    (hinv : ∀ a, call.action ≠ .invalidate a)
    (hothers : ∀ q n, call.Proposes q n → q = proposer ∧ n = name)
    (hlive : Live host (calls ++ [call]) proposer name prop apps) :
    History host (calls ++ [call]) { s' with slot := call.ctx.slot } where
  slots d hd := by
    rcases List.mem_append.mp hd with hd | hd
    · exact (h.slots d hd).trans hslot
    · exact (congrArg (·.ctx.slot.toNat) (List.mem_singleton.mp hd)).le
  noOld p n := by
    show (s'.oldApprovals p).find n = none
    rw [hw.oldApprovals]
    exact h.noOld p n
  invalidated d hd a ha := by
    show ∃ row, s'.invalidations.find a = some row ∧ _
    rw [hw.invalidations]
    rcases List.mem_append.mp hd with hd | hd
    · exact h.invalidated d hd a ha
    · rw [List.mem_singleton.mp hd] at ha
      exact absurd ha (hinv a)
  live q n := by
    show Live host _ q n (s'.proposalOf q n) (s'.approvalsOf q n)
    rw [hw.proposals, hw.approvals]
    by_cases hkey : q = proposer ∧ n = name
    · rw [if_pos hkey, if_pos hkey, hkey.1, hkey.2]
      exact hlive
    · rw [if_neg hkey, if_neg hkey]
      exact (h.live q n).extend (fun hp => hkey (hothers q n hp))

/-- A proposal starts a new incarnation of its name. -/
private theorem live_proposed {ctx : MultisigCtx}
    {requested : List PermissionLevel} {trx : List UInt8} :
    Live host (calls ++ [⟨ctx, .propose proposer name requested trx⟩]) proposer
      name (some ⟨name, trx⟩)
      (some ⟨name, requested.map (fun level => ⟨level, 0⟩), []⟩) := by
  let I : Incarnation
      (calls ++ [⟨ctx, .propose proposer name requested trx⟩]) proposer name :=
    { before := calls
      ctx := ctx
      requested := requested
      trx := trx
      after := []
      split := rfl
      latest := fun c hc => by simp at hc }
  refine .inr ⟨_, _, rfl, rfl, I, rfl, fun r hr => ?_, fun p hp => ?_⟩
  · obtain ⟨level, hlevel, rfl⟩ := List.mem_map.mp hr
    exact hlevel
  · simp at hp

/-- An approval is tied to the call that gives it. -/
private theorem live_approved {ctx : MultisigCtx} {level : PermissionLevel}
    {hash : Option (List UInt8)}
    (h : Live host calls proposer name (s.proposalOf proposer name)
      (some apps))
    (hauth : level ∈ ctx.auths)
    (hhash : ∀ x, hash = some x → ∃ prop,
      s.proposalOf proposer name = some prop ∧
      host.sha256 prop.packedTransaction = x)
    (hlevel : ∃ r ∈ apps.requestedApprovals, r.level = level) :
    Live host (calls ++ [⟨ctx, .approve proposer name level hash⟩]) proposer
      name (s.proposalOf proposer name)
      (some (apps.grant level ctx.currentTimePoint)) := by
  rcases h with ⟨_, hnone⟩ | ⟨p, _, hp, ha, I, htied⟩
  · cases hnone
  cases ha
  have hcall : ¬ MultisigCall.Proposes
      ⟨ctx, .approve proposer name level hash⟩ proposer name := by
    rintro ⟨_, _, heq⟩
    cases heq
  have hrequested : level ∈ I.requested := by
    obtain ⟨r, hr, rfl⟩ := hlevel
    exact htied.requested r hr
  have htied' := htied.extend hcall
  refine .inr ⟨p, _, hp, rfl, I.extend _ hcall, htied'.trx, fun r hr => ?_,
    fun q hq => ?_⟩
  · exact htied'.requested r (List.mem_of_mem_eraseP hr)
  · rcases List.mem_append.mp hq with hq | hq
    · exact htied'.provided q hq
    · rw [List.mem_singleton.mp hq]
      refine ⟨hrequested, _,
        List.mem_append_right _ (List.mem_singleton_self _), hauth, rfl, hash,
        rfl, fun x hx => ?_⟩
      obtain ⟨prop, hprop, hsha⟩ := hhash x hx
      obtain rfl : prop = p := Option.some.inj (hprop.symm.trans hp)
      rw [← hsha, htied.trx]
      rfl

/-- A revoked approval is requested again. -/
private theorem live_unapproved {ctx : MultisigCtx} {level : PermissionLevel}
    (h : Live host calls proposer name (s.proposalOf proposer name)
      (some apps))
    (hlevel : ∃ p ∈ apps.providedApprovals, p.level = level) :
    Live host (calls ++ [⟨ctx, .unapprove proposer name level⟩]) proposer
      name (s.proposalOf proposer name)
      (some (apps.revoke level ctx.currentTimePoint)) := by
  rcases h with ⟨_, hnone⟩ | ⟨p, _, hp, ha, I, htied⟩
  · cases hnone
  cases ha
  have hcall : ¬ MultisigCall.Proposes
      ⟨ctx, .unapprove proposer name level⟩ proposer name := by
    rintro ⟨_, _, heq⟩
    cases heq
  have hrequested : level ∈ I.requested := by
    obtain ⟨q, hq, rfl⟩ := hlevel
    exact (htied.provided q hq).1
  have htied' := htied.extend hcall
  refine .inr ⟨p, _, hp, rfl, I.extend _ hcall, htied'.trx, fun r hr => ?_,
    fun q hq => ?_⟩
  · rcases List.mem_append.mp hr with hr | hr
    · exact htied'.requested r hr
    · rw [List.mem_singleton.mp hr]
      exact hrequested
  · exact htied'.provided q (List.mem_of_mem_eraseP hq)

/-- An invalidation is the latest of its account. -/
private theorem History.invalidated_now {ctx : MultisigCtx} {account : Name}
    (h : History host calls s)
    (hslot : s.slot.toNat ≤ ctx.slot.toNat) :
    History host (calls ++ [⟨ctx, .invalidate account⟩]) { s with
      invalidations := s.invalidations.put ⟨account, ctx.currentTimePoint⟩
      slot := ctx.slot } where
  slots d hd := by
    rcases List.mem_append.mp hd with hd | hd
    · exact (h.slots d hd).trans hslot
    · exact (congrArg (·.ctx.slot.toNat) (List.mem_singleton.mp hd)).le
  noOld := h.noOld
  invalidated d hd a ha := by
    show ∃ row, (s.invalidations.put _).find a = some row ∧ _
    rw [KeyedTable.find_put]
    rcases List.mem_append.mp hd with hd | hd
    · obtain ⟨row, hrow, htime⟩ := h.invalidated d hd a ha
      split
      · refine ⟨_, rfl, ?_⟩
        have hd' := h.slots d hd
        simp only [MultisigCall.time, Ctx.currentTimePoint]
        omega
      · exact ⟨row, hrow, htime⟩
    · rw [List.mem_singleton.mp hd] at ha ⊢
      cases ha
      rw [if_pos rfl]
      exact ⟨_, rfl, le_refl _⟩
  live p n := by
    refine (h.live p n).extend ?_
    rintro ⟨_, _, heq⟩
    cases heq

/-- **Every call keeps the history.** -/
theorem History.step (h : History host calls s)
    (hstep : MultisigStep host s call s') :
    History host (calls ++ [call]) s' := by
  obtain ⟨x, hx⟩ := hstep
  simp only [MultisigState.perform, bind_eq_ok, require_eq_ok, pure_eq_ok,
    Prod.mk.injEq, exists_const] at hx
  obtain ⟨hle, ⟨s₁, y⟩, happly, rfl, _⟩ := hx
  have hslot : s.slot.toNat ≤ call.ctx.slot.toNat :=
    UInt32.le_iff_toNat_le.mp hle
  obtain ⟨ctx, action⟩ := call
  have hother : ∀ q n, (∀ requested trx,
      action ≠ .propose q n requested trx) →
      ¬ MultisigCall.Proposes ⟨ctx, action⟩ q n := by
    rintro q n hne ⟨requested, trx, heq⟩
    exact hne requested trx heq
  cases action with
  | propose p n requested trx =>
      simp only [Multisig.apply, bind_eq_ok, pure_eq_ok,
        Prod.mk.injEq] at happly
      obtain ⟨_, hpropose, rfl, _⟩ := happly
      refine h.wrote (Multisig.propose_ok hpropose) hslot (by simp) ?_
        live_proposed
      rintro q m ⟨_, _, heq⟩
      cases heq
      exact ⟨rfl, rfl⟩
  | approve p n level hash =>
      simp only [Multisig.apply, bind_eq_ok, pure_eq_ok,
        Prod.mk.injEq] at happly
      obtain ⟨_, happrove, rfl, _⟩ := happly
      obtain ⟨hauth, hhash, row, hrow, hlevel, hw⟩ :=
        Multisig.approve_ok happrove h.noOld
      have hlive := h.live p n
      rw [hrow] at hlive
      exact h.wrote hw hslot (by simp)
        (fun q m hp => absurd hp (hother q m (by simp)))
        (live_approved hlive hauth hhash hlevel)
  | unapprove p n level =>
      simp only [Multisig.apply, bind_eq_ok, pure_eq_ok,
        Prod.mk.injEq] at happly
      obtain ⟨_, hunapprove, rfl, _⟩ := happly
      obtain ⟨row, hrow, hlevel, hw⟩ :=
        Multisig.unapprove_ok hunapprove h.noOld
      have hlive := h.live p n
      rw [hrow] at hlive
      exact h.wrote hw hslot (by simp)
        (fun q m hp => absurd hp (hother q m (by simp)))
        (live_unapproved hlive hlevel)
  | cancel p n canceler =>
      simp only [Multisig.apply, bind_eq_ok, pure_eq_ok,
        Prod.mk.injEq] at happly
      obtain ⟨_, hcancel, rfl, _⟩ := happly
      exact h.wrote (Multisig.cancel_ok hcancel h.noOld) hslot (by simp)
        (fun q m hp => absurd hp (hother q m (by simp))) (.inl ⟨rfl, rfl⟩)
  | exec p n executer =>
      simp only [Multisig.apply, bind_eq_ok, pure_eq_ok,
        Prod.mk.injEq] at happly
      obtain ⟨_, hexec, rfl, _⟩ := happly
      exact h.wrote (Multisig.exec_ok hexec h.noOld).2 hslot (by simp)
        (fun q m hp => absurd hp (hother q m (by simp))) (.inl ⟨rfl, rfl⟩)
  | invalidate account =>
      simp only [Multisig.apply, bind_eq_ok, pure_eq_ok,
        Prod.mk.injEq] at happly
      obtain ⟨_, hinvalidate, rfl, _⟩ := happly
      rw [Multisig.invalidate_ok hinvalidate]
      exact h.invalidated_now hslot

theorem history_genesis : History host [] .genesis where
  slots d hd := by simp at hd
  noOld _ _ := rfl
  invalidated d hd := by simp at hd
  live _ _ := .inl ⟨rfl, rfl⟩

/-- The tables agree with the calls of every run. -/
theorem History.run (hrun : Run (MultisigStep host) .genesis calls s) :
    History host calls s :=
  hrun.history history_genesis (fun _ _ _ _ h hstep => h.step hstep)

/-- An approval that stands was given after every invalidation of its
actor. -/
theorem History.time_lt (h : History host calls s) {p : Approval}
    (hp : Multisig.stands s p = true) {d : MultisigCall} (hd : d ∈ calls)
    (haction : d.action = .invalidate p.level.actor) : d.time < p.time := by
  obtain ⟨row, hrow, htime⟩ := h.invalidated d hd _ haction
  unfold Multisig.stands at hp
  rw [hrow] at hp
  have hlt := of_decide_eq_true hp
  omega

end Histories

/-- **An execution rests on approvals of the latest proposal.**  In every run
from empty tables, each level that `exec` has checked was requested by the
latest proposal of the name and has approved it since under its own authority,
for the very transaction that is sent if the approval carries a hash, and its
actor has never invalidated it at that time or later. -/
theorem multisig_exec_safe {host : MultisigHost} {calls : List MultisigCall}
    {s s' : MultisigState} {ctx : MultisigCtx} {proposer name executer : Name}
    {x : Execution} (hrun : Run (MultisigStep host) .genesis calls s)
    (hexec : s.perform host ⟨ctx, .exec proposer name executer⟩ =
      .ok (s', some x)) :
    ∃ before ctx₀ requested trx after,
      calls = before ++ ⟨ctx₀, .propose proposer name requested trx⟩ :: after ∧
      (∀ c ∈ after, ¬ c.Proposes proposer name) ∧
      x.packedTransaction = trx ∧
      ∀ level ∈ x.provided, level ∈ requested ∧ ∃ c ∈ after, ∃ hash,
        c.action = .approve proposer name level hash ∧
        level ∈ c.ctx.auths ∧
        (∀ h, hash = some h → host.sha256 x.packedTransaction = h) ∧
        ∀ d ∈ calls, d.action = .invalidate level.actor → d.time < c.time := by
  have hhistory := History.run hrun
  simp only [MultisigState.perform, Multisig.apply, bind_eq_ok, require_eq_ok,
    pure_eq_ok, Prod.mk.injEq, exists_const] at hexec
  obtain ⟨_, _, ⟨⟨s₂, z⟩, hexec, rfl⟩, _, hy⟩ := hexec
  obtain rfl : z = x := Option.some.inj hy
  obtain ⟨⟨prop, apps, hprop, happs, htrx, hprovided⟩, _⟩ :=
    Multisig.exec_ok hexec hhistory.noOld
  have hlive := hhistory.live proposer name
  rw [hprop, happs] at hlive
  rcases hlive with ⟨hnone, _⟩ | ⟨_, _, hp, ha, I, htied⟩
  · cases hnone
  cases hp
  cases ha
  have hsent : z.packedTransaction = I.trx := htrx.trans htied.trx
  refine ⟨I.before, I.ctx, I.requested, I.trx, I.after, I.split, I.latest,
    hsent, fun level hlevel => ?_⟩
  rw [hprovided] at hlevel
  obtain ⟨p, hp, rfl⟩ := List.mem_map.mp hlevel
  obtain ⟨hmem, hstands⟩ := List.mem_filter.mp hp
  obtain ⟨hrequested, c, hc, hgrants⟩ := htied.provided p hmem
  obtain ⟨hash, haction, hhash⟩ := hgrants.approves
  refine ⟨hrequested, c, hc, hash, haction, hgrants.authorized,
    fun h hh => ?_, fun d hd hinv => ?_⟩
  · rw [hsent]
    exact hhash h hh
  · rw [← hgrants.time]
    exact hhistory.time_lt hstands hd hinv

/-- A host on which every transaction can be read and is its own hash. -/
def sampleHost : MultisigHost where
  headerExpiration _ := some 4000000000
  sha256 := id

/-- A call that one account signs, of a transaction that needs some levels. -/
def sampleCall (a : Name) (slot : UInt32) (needed : List PermissionLevel)
    (action : MultisigAction) : MultisigCall where
  ctx := {
    Ctx.signedBy a slot with
    checkTransactionAuthorization := fun _ provided =>
      if needed ⊆ provided then 1 else 0 }
  action := action

/-- The active permission of the system account, which approves below. -/
def systemLevel : PermissionLevel := ⟨systemAccount, activePermission⟩

/-- The token account proposes a transaction of the system account twice, and
the system account approves the second proposal. -/
def approvedCalls : List MultisigCall :=
  [sampleCall tokenAccount 1 [] (.propose tokenAccount tokenAccount
      [systemLevel] [1]),
    sampleCall systemAccount 2 [] (.approve tokenAccount tokenAccount
      systemLevel none),
    sampleCall systemAccount 3 [] (.invalidate systemAccount),
    sampleCall tokenAccount 4 [] (.cancel tokenAccount tokenAccount
      tokenAccount),
    sampleCall tokenAccount 5 [] (.propose tokenAccount tokenAccount
      [systemLevel] [2]),
    sampleCall systemAccount 6 [] (.approve tokenAccount tokenAccount
      systemLevel (some [2]))]

theorem multisig_exec_safe_sample : ∃ x : Execution,
    x.provided = [systemLevel] ∧
    ∃ before ctx₀ requested trx after,
      approvedCalls = before ++
        ⟨ctx₀, .propose tokenAccount tokenAccount requested trx⟩ :: after ∧
      (∀ c ∈ after, ¬ c.Proposes tokenAccount tokenAccount) ∧
      x.packedTransaction = trx := by
  have hsample : Finishes (approvedCalls.foldlM
      (fun (s : MultisigState) c => (s.perform sampleHost c).map (·.1))
      MultisigState.genesis)
      (fun s => Finishes (s.perform sampleHost (sampleCall tokenAccount 7
        [systemLevel] (.exec tokenAccount tokenAccount tokenAccount)))
        (fun r => r.2.map (·.provided) = some [systemLevel])) := by
    decide +kernel
  obtain ⟨s, hcalls, ⟨s', y⟩, hexec, hy⟩ := hsample
  obtain ⟨x, rfl, hprovided⟩ := Option.map_eq_some_iff.mp hy
  obtain ⟨before, ctx₀, requested, trx, after, hsplit, hlatest, hsent, _⟩ :=
    multisig_exec_safe (MultisigStep.run hcalls) hexec
  exact ⟨x, hprovided, before, ctx₀, requested, trx, after, hsplit, hlatest,
    hsent⟩

end Inery
