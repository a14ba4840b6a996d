import IneryContracts.MultisigPairing

/-!
# Approvals that have been withdrawn

`approve` and `unapprove` each move one entry of a level, so the entries of a
level among the approvals given are the approvals less the withdrawals since
the latest proposal.  A level that is requested once is therefore gone as soon
as it is withdrawn; one that is requested twice may be given twice, and a
withdrawal takes back one of the two.
-/

namespace Inery

open GuardedStep LabelledRun

/-! ## Decisions about a level -/

namespace MultisigCall

variable {c : MultisigCall} {proposer name : Name} {level : PermissionLevel}

/-- The call gives the approval of a level to the proposal of the name. -/
def approves (proposer name : Name) (level : PermissionLevel)
    (c : MultisigCall) : Bool :=
  match c.action with
  | .approve p n l _ => decide (p = proposer ∧ n = name ∧ l = level)
  | _ => false

/-- The call takes the approval of a level back. -/
def unapproves (proposer name : Name) (level : PermissionLevel)
    (c : MultisigCall) : Bool :=
  match c.action with
  | .unapprove p n l => decide (p = proposer ∧ n = name ∧ l = level)
  | _ => false

/-- The call proposes nothing under the name and decides about no level. -/
def Undecided (c : MultisigCall) (proposer name : Name) : Prop :=
  ¬ c.Proposes proposer name ∧
  ∀ level, c.approves proposer name level = false ∧
    c.unapproves proposer name level = false

/-- An approval decides on its own level alone. -/
theorem decides_of_approve {hash : Option (List UInt8)}
    (h : c.action = .approve proposer name level hash)
    (other : PermissionLevel) :
    c.approves proposer name other = decide (level = other) ∧
      c.unapproves proposer name other = false := by
  simp [approves, unapproves, h]

/-- A withdrawal decides on its own level alone. -/
theorem decides_of_unapprove (h : c.action = .unapprove proposer name level)
    (other : PermissionLevel) :
    c.approves proposer name other = false ∧
      c.unapproves proposer name other = decide (level = other) := by
  simp [approves, unapproves, h]

end MultisigCall

/-- The last decision about a level since the proposal has been to withdraw its
approval. -/
def Incarnation.Withdrawn {calls : List MultisigCall} {proposer name : Name}
    (I : Incarnation calls proposer name) (level : PermissionLevel) : Prop :=
  ∃ early c late, I.after = early ++ c :: late ∧
    c.unapproves proposer name level = true ∧
    ∀ d ∈ late, d.approves proposer name level = false ∧
      d.unapproves proposer name level = false

namespace ApprovalsInfo

variable {a : ApprovalsInfo} {level other : PermissionLevel} {now : ℤ}

/-- The levels that a row still asks for. -/
def asked (a : ApprovalsInfo) : List PermissionLevel :=
  a.requestedApprovals.map (·.level)

/-- The levels that a row has been given. -/
def given (a : ApprovalsInfo) : List PermissionLevel :=
  a.providedApprovals.map (·.level)

/-- A permutation of all levels keeps how often each one occurs. -/
theorem count_of_levels {b : ApprovalsInfo} (h : b.levels.Perm a.levels)
    (level : PermissionLevel) :
    b.asked.count level + b.given.count level =
      a.asked.count level + a.given.count level := by
  have hcount := h.count_eq level
  simp only [levels, List.count_append] at hcount
  exact hcount

/-- An approval gives its level once more. -/
theorem count_grant (a : ApprovalsInfo) (level other : PermissionLevel)
    (now : ℤ) : (a.grant level now).given.count other =
      a.given.count other + if level = other then 1 else 0 := by
  simp only [given, grant, List.map_append, List.map_cons, List.map_nil,
    List.count_append, List.count_singleton, beq_iff_eq]

/-- A withdrawal gives its level once less. -/
theorem count_revoke (h : ∃ p ∈ a.providedApprovals, p.level = level)
    (other : PermissionLevel) (now : ℤ) :
    (a.revoke level now).given.count other +
      (if level = other then 1 else 0) = a.given.count other := by
  have hcount := (perm_eraseP h).count_eq other
  rw [List.count_cons] at hcount
  simp only [given, revoke, hcount, beq_iff_eq]

/-- The withdrawn level is asked for again. -/
theorem mem_asked_revoke : level ∈ (a.revoke level now).asked := by
  simp [asked, revoke]

/-- An approval leaves the other levels asked for. -/
theorem mem_asked_of_ne (hne : level ≠ other) (h : other ∈ a.asked) :
    other ∈ (a.grant level now).asked := by
  obtain ⟨r, hr, rfl⟩ := List.mem_map.mp h
  have hkept : r ∈ a.requestedApprovals.eraseP (fun r => r.level = level) :=
    (List.mem_eraseP_of_neg (by simpa using hne.symm)).mpr hr
  exact List.mem_map_of_mem hkept

/-- A withdrawal leaves all levels asked for. -/
theorem mem_asked_revoke_of_mem (h : other ∈ a.asked) :
    other ∈ (a.revoke level now).asked := by
  unfold asked revoke
  rw [List.map_append]
  exact List.mem_append_left _ h

end ApprovalsInfo

/-! ## What one call does to a row -/

section Steps

variable {host : MultisigHost} {calls : List MultisigCall} {call : MultisigCall}
  {ctx : MultisigCtx} {s s' : MultisigState} {proposer name : Name}
  {row row' : ApprovalsInfo} {level : PermissionLevel}

/-- Where the row of approvals that a call leaves under a name comes from. -/
inductive Decision (s : MultisigState) (call : MultisigCall)
    (proposer name : Name) (row' : ApprovalsInfo) : Prop
  | fresh (requested : List PermissionLevel) (trx : List UInt8)
      (action : call.action = .propose proposer name requested trx)
      (empty : row'.given = []) (asked : row'.asked = requested)
  | granted (row : ApprovalsInfo) (level : PermissionLevel)
      (hash : Option (List UInt8))
      (action : call.action = .approve proposer name level hash)
      (found : s.approvalsOf proposer name = some row)
      (listed : ∃ r ∈ row.requestedApprovals, r.level = level)
      (moved : row' = row.grant level call.time)
  | revoked (row : ApprovalsInfo) (level : PermissionLevel)
      (action : call.action = .unapprove proposer name level)
      (found : s.approvalsOf proposer name = some row)
      (listed : ∃ p ∈ row.providedApprovals, p.level = level)
      (moved : row' = row.revoke level call.time)
  | kept (quiet : call.Undecided proposer name)
      (still : s.approvalsOf proposer name = some row')

/-- A row that is written under another name is kept under this one. -/
private theorem Wrote.kept {p n : Name} {prop : Option Proposal}
    {apps : Option ApprovalsInfo} (h : Wrote s s' p n prop apps)
    (hkey : ¬ (p = proposer ∧ n = name))
    (hrow : s'.approvalsOf proposer name = some row') :
    s.approvalsOf proposer name = some row' := by
  have happs := h.approvals proposer name
  rw [if_neg (fun heq => hkey ⟨heq.1.symm, heq.2.symm⟩)] at happs
  exact happs.symm.trans hrow

/-- The row that is written under a name. -/
private theorem Wrote.row_eq {prop : Option Proposal}
    {apps : ApprovalsInfo} (h : Wrote s s' proposer name prop (some apps))
    (hrow : s'.approvalsOf proposer name = some row') : row' = apps := by
  have happs := h.approvals proposer name
  rw [if_pos ⟨rfl, rfl⟩, hrow] at happs
  exact Option.some.inj happs

/-- **Where the row of a name comes from.** -/
theorem Multisig.apply_decision {action : MultisigAction}
    {x : Option Execution} (hold : s.NoOld)
    (h : Multisig.apply host ctx s action = .ok (s', x))
    (hrow : s'.approvalsOf proposer name = some row') :
    Decision s ⟨ctx, action⟩ proposer name row' := by
  cases action with
  | propose p n requested trx =>
      simp only [Multisig.apply, bind_eq_ok, pure_eq_ok, Prod.mk.injEq] at h
      obtain ⟨_, hpropose, rfl, _⟩ := h
      have hw := Multisig.propose_ok hpropose
      by_cases hkey : p = proposer ∧ n = name
      · obtain ⟨rfl, rfl⟩ := hkey
        obtain rfl := hw.row_eq hrow
        exact .fresh requested trx rfl rfl
          (by simp [ApprovalsInfo.asked, Function.comp_def])
      · refine .kept ⟨?_, fun _ => ⟨rfl, rfl⟩⟩ (hw.kept hkey hrow)
        rintro ⟨_, _, heq⟩
        cases heq
        exact hkey ⟨rfl, rfl⟩
  | approve p n level hash =>
      simp only [Multisig.apply, bind_eq_ok, pure_eq_ok, Prod.mk.injEq] at h
      obtain ⟨_, happrove, rfl, _⟩ := h
      obtain ⟨_, _, row, hfound, hlisted, hw⟩ :=
        Multisig.approve_ok happrove hold
      by_cases hkey : p = proposer ∧ n = name
      · obtain ⟨rfl, rfl⟩ := hkey
        exact .granted row level hash rfl hfound hlisted (hw.row_eq hrow)
      · refine .kept ⟨by simp [MultisigCall.Proposes], fun l => ⟨?_, rfl⟩⟩
          (hw.kept hkey hrow)
        exact decide_eq_false (fun heq => hkey ⟨heq.1, heq.2.1⟩)
  | unapprove p n level =>
      simp only [Multisig.apply, bind_eq_ok, pure_eq_ok, Prod.mk.injEq] at h
      obtain ⟨_, hunapprove, rfl, _⟩ := h
      obtain ⟨row, hfound, hlisted, hw⟩ :=
        Multisig.unapprove_ok hunapprove hold
      by_cases hkey : p = proposer ∧ n = name
      · obtain ⟨rfl, rfl⟩ := hkey
        exact .revoked row level rfl hfound hlisted (hw.row_eq hrow)
      · refine .kept ⟨by simp [MultisigCall.Proposes], fun l => ⟨rfl, ?_⟩⟩
          (hw.kept hkey hrow)
        exact decide_eq_false (fun heq => hkey ⟨heq.1, heq.2.1⟩)
  | cancel p n canceler =>
      simp only [Multisig.apply, bind_eq_ok, pure_eq_ok, Prod.mk.injEq] at h
      obtain ⟨_, hcancel, rfl, _⟩ := h
      have hw := Multisig.cancel_ok hcancel hold
      refine .kept ⟨by simp [MultisigCall.Proposes], fun _ => ⟨rfl, rfl⟩⟩
        (hw.kept ?_ hrow)
      rintro ⟨rfl, rfl⟩
      have hgone := hw.approvals p n
      rw [if_pos ⟨rfl, rfl⟩, hrow] at hgone
      cases hgone
  | exec p n executer =>
      simp only [Multisig.apply, bind_eq_ok, pure_eq_ok, Prod.mk.injEq] at h
      obtain ⟨_, hexec, rfl, _⟩ := h
      have hw := (Multisig.exec_ok hexec hold).2
      refine .kept ⟨by simp [MultisigCall.Proposes], fun _ => ⟨rfl, rfl⟩⟩
        (hw.kept ?_ hrow)
      rintro ⟨rfl, rfl⟩
      have hgone := hw.approvals p n
      rw [if_pos ⟨rfl, rfl⟩, hrow] at hgone
      cases hgone
  | invalidate account =>
      simp only [Multisig.apply, bind_eq_ok, pure_eq_ok, Prod.mk.injEq] at h
      obtain ⟨_, hinvalidate, rfl, _⟩ := h
      rw [Multisig.invalidate_ok hinvalidate] at hrow
      exact .kept ⟨by simp [MultisigCall.Proposes], fun _ => ⟨rfl, rfl⟩⟩ hrow

/-- A call that succeeds leaves a row as its action does. -/
theorem MultisigStep.decision (hold : s.NoOld)
    (h : MultisigStep host s call s')
    (hrow : s'.approvalsOf proposer name = some row') :
    Decision s call proposer name row' := by
  obtain ⟨x, hx⟩ := h
  simp only [MultisigState.perform, bind_eq_ok, require_eq_ok, pure_eq_ok,
    Prod.mk.injEq, exists_const] at hx
  obtain ⟨_, ⟨s₁, y⟩, happly, rfl, _⟩ := hx
  exact Multisig.apply_decision hold happly hrow

/-! ## Rows against decisions -/

/-- The entries of a row against the decisions since the latest proposal: a
level has been given as often as it was approved and not withdrawn, no level
is listed more often than it was requested, and a level that was withdrawn last
is asked for. -/
structure Tallied {calls : List MultisigCall} {proposer name : Name}
    (I : Incarnation calls proposer name) (row : ApprovalsInfo) : Prop where
  given : ∀ level, row.given.count level +
    I.after.countP (·.unapproves proposer name level) =
      I.after.countP (·.approves proposer name level)
  listed : ∀ level, row.asked.count level + row.given.count level =
    I.requested.count level
  withdrawn : ∀ level, I.Withdrawn level → level ∈ row.asked

/-- A level that is withdrawn last, when one more call has been made: by that
call, or it was before and the call does not decide about it. -/
theorem Incarnation.Withdrawn.of_snoc {J : Incarnation calls proposer name}
    {I : Incarnation (calls ++ [call]) proposer name}
    (hafter : I.after = J.after ++ [call]) (h : I.Withdrawn level) :
    call.unapproves proposer name level = true ∨
      call.approves proposer name level = false ∧ J.Withdrawn level := by
  obtain ⟨early, c, late, hsplit, hc, hlate⟩ := h
  rw [hafter] at hsplit
  rcases List.eq_nil_or_concat late with rfl | ⟨l, d, rfl⟩
  · obtain ⟨_, hcall⟩ := List.append_inj' hsplit rfl
    cases hcall
    exact .inl hc
  · rw [List.concat_eq_append, ← List.cons_append,
      ← List.append_assoc] at hsplit
    obtain ⟨hearly, hcall⟩ := List.append_inj' hsplit rfl
    cases hcall
    have hquiet := hlate call (by simp)
    exact .inr ⟨hquiet.1, early, c, l, hearly, hc,
      fun e he => hlate e (by simp [he])⟩

section Extend

variable {J : Incarnation calls proposer name}
  {I : Incarnation (calls ++ [call]) proposer name}

/-- One more call counts for one where it is of the kind counted. -/
private theorem countP_after (hafter : I.after = J.after ++ [call])
    (p : MultisigCall → Bool) :
    I.after.countP p = J.after.countP p + if p call then 1 else 0 := by
  rw [hafter, List.countP_append, List.countP_singleton]

/-- An approval keeps the tally. -/
theorem Tallied.granted {hash : Option (List UInt8)} (h : Tallied J row)
    (hrequested : I.requested = J.requested)
    (hafter : I.after = J.after ++ [call])
    (haction : call.action = .approve proposer name level hash)
    (hlisted : ∃ r ∈ row.requestedApprovals, r.level = level) :
    Tallied I (row.grant level call.time) where
  given other := by
    obtain ⟨happroves, hunapproves⟩ := call.decides_of_approve haction other
    have hgiven := h.given other
    rw [countP_after hafter, countP_after hafter, happroves, hunapproves,
      ApprovalsInfo.count_grant]
    simp only [decide_eq_true_eq, Bool.false_eq_true, if_false]
    omega
  listed other := by
    have hperm : (row.grant level call.time).levels.Perm row.levels :=
      ApprovalsInfo.grant_levels hlisted
    rw [ApprovalsInfo.count_of_levels hperm, h.listed, hrequested]
  withdrawn other hwithdrawn := by
    rcases hwithdrawn.of_snoc hafter with hnow | ⟨hother, hbefore⟩
    · rw [(call.decides_of_approve haction other).2] at hnow
      cases hnow
    · rw [(call.decides_of_approve haction other).1] at hother
      exact ApprovalsInfo.mem_asked_of_ne (of_decide_eq_false hother)
        (h.withdrawn other hbefore)

/-- A withdrawal keeps the tally. -/
theorem Tallied.revoked (h : Tallied J row)
    (hrequested : I.requested = J.requested)
    (hafter : I.after = J.after ++ [call])
    (haction : call.action = .unapprove proposer name level)
    (hlisted : ∃ p ∈ row.providedApprovals, p.level = level) :
    Tallied I (row.revoke level call.time) where
  given other := by
    obtain ⟨happroves, hunapproves⟩ := call.decides_of_unapprove haction other
    have hgiven := h.given other
    have hcount := ApprovalsInfo.count_revoke hlisted other call.time
    rw [countP_after hafter, countP_after hafter, happroves, hunapproves]
    simp only [decide_eq_true_eq, Bool.false_eq_true, if_false]
    omega
  listed other := by
    have hperm : (row.revoke level call.time).levels.Perm row.levels :=
      ApprovalsInfo.revoke_levels hlisted
    rw [ApprovalsInfo.count_of_levels hperm, h.listed, hrequested]
  withdrawn other hwithdrawn := by
    rcases hwithdrawn.of_snoc hafter with hnow | ⟨_, hbefore⟩
    · rw [(call.decides_of_unapprove haction other).2] at hnow
      rw [← of_decide_eq_true hnow]
      exact ApprovalsInfo.mem_asked_revoke
    · exact ApprovalsInfo.mem_asked_revoke_of_mem
        (h.withdrawn other hbefore)

/-- A call that decides on nothing keeps the tally. -/
theorem Tallied.kept (h : Tallied J row)
    (hrequested : I.requested = J.requested)
    (hafter : I.after = J.after ++ [call])
    (hquiet : call.Undecided proposer name) : Tallied I row where
  given other := by
    obtain ⟨happroves, hunapproves⟩ := hquiet.2 other
    rw [countP_after hafter, countP_after hafter, happroves, hunapproves]
    exact h.given other
  listed other := by
    rw [h.listed, hrequested]
  withdrawn other hwithdrawn := by
    rcases hwithdrawn.of_snoc hafter with hnow | ⟨_, hbefore⟩
    · rw [(hquiet.2 other).2] at hnow
      cases hnow
    · exact h.withdrawn other hbefore

/-- The row of a new proposal. -/
theorem Tallied.fresh (hafter : I.after = []) (hgiven : row.given = [])
    (hasked : row.asked = I.requested) : Tallied I row where
  given level := by simp [hgiven, hafter]
  listed level := by simp [hgiven, hasked]
  withdrawn level hwithdrawn := by
    obtain ⟨early, c, late, hsplit, _⟩ := hwithdrawn
    rw [hafter] at hsplit
    simp at hsplit

end Extend

/-- The rows of every history are tallied. -/
def Balanced (calls : List MultisigCall) (s : MultisigState)
    (proposer name : Name) : Prop :=
  ∀ (I : Incarnation calls proposer name) (row : ApprovalsInfo),
    s.approvalsOf proposer name = some row → Tallied I row

/-- There is no proposal to tally in the beginning. -/
theorem balanced_genesis : Balanced [] .genesis proposer name := by
  intro I
  have hsplit := I.split
  simp at hsplit

/-- **A decision keeps the tally.** -/
theorem Balanced.step (h : Balanced calls s proposer name)
    (hdecision : ∀ row, s'.approvalsOf proposer name = some row →
      Decision s call proposer name row) :
    Balanced (calls ++ [call]) s' proposer name := by
  intro I row' hrow'
  rcases I.of_snoc with ⟨hpropose, hafter⟩ | ⟨J, hquiet, hrequested, hafter⟩
  · cases hdecision row' hrow' with
    | fresh requested trx action empty asked =>
        rw [hpropose] at action
        cases action
        exact .fresh hafter empty asked
    | granted row level hash action =>
        rw [hpropose] at action
        cases action
    | revoked row level action =>
        rw [hpropose] at action
        cases action
    | kept quiet still => exact absurd ⟨_, _, hpropose⟩ quiet.1
  · cases hdecision row' hrow' with
    | fresh requested trx action =>
        exact absurd ⟨requested, trx, action⟩ hquiet
    | granted row level hash action found listed moved =>
        rw [moved]
        exact (h J row found).granted hrequested hafter action listed
    | revoked row level action found listed moved =>
        rw [moved]
        exact (h J row found).revoked hrequested hafter action listed
    | kept quiet still => exact (h J row' still).kept hrequested hafter quiet

/-- The rows are tallied after every run. -/
theorem Balanced.run (hrun : Run (MultisigStep host) .genesis calls s) :
    Balanced calls s proposer name := by
  have hboth : History host calls s ∧ Balanced calls s proposer name :=
    hrun.history
      (H := fun ds u => History host ds u ∧ Balanced ds u proposer name)
      ⟨history_genesis, balanced_genesis⟩
      (fun _ _ _ _ h hstep => ⟨h.1.step hstep,
        h.2.step (fun _ => hstep.decision h.1.noOld)⟩)
  exact hboth.2

end Steps

/-- The approval of a level counts no longer: it is not among those given, and
`exec` does not pass it to the host. -/
def MultisigState.Discounts (host : MultisigHost) (s : MultisigState)
    (proposer name : Name) (level : PermissionLevel) : Prop :=
  (∀ row, s.approvalsOf proposer name = some row →
    ∀ p ∈ row.providedApprovals, p.level ≠ level) ∧
  ∀ ctx executer s' x,
    s.perform host ⟨ctx, .exec proposer name executer⟩ = .ok (s', some x) →
    level ∉ x.provided

/-- A level that no row has been given is not passed to the host either. -/
theorem MultisigState.discounts_iff {host : MultisigHost} {s : MultisigState}
    {proposer name : Name} {level : PermissionLevel} (hold : s.NoOld) :
    s.Discounts host proposer name level ↔
      ∀ row, s.approvalsOf proposer name = some row → level ∉ row.given := by
  have hgiven : ∀ row : ApprovalsInfo, level ∉ row.given ↔
      ∀ p ∈ row.providedApprovals, p.level ≠ level := by
    intro row
    simp [ApprovalsInfo.given]
  constructor
  · intro h row hrow
    exact (hgiven row).mpr (h.1 row hrow)
  · intro h
    refine ⟨fun row hrow => (hgiven row).mp (h row hrow), ?_⟩
    intro ctx executer s' x hexec hmem
    simp only [perform, Multisig.apply, bind_eq_ok, require_eq_ok, pure_eq_ok,
      Prod.mk.injEq, exists_const] at hexec
    obtain ⟨_, _, ⟨⟨_, y⟩, hexec, rfl⟩, _, hy⟩ := hexec
    obtain rfl : y = x := Option.some.inj hy
    obtain ⟨⟨_, row, _, hrow, _, hprovided⟩, _⟩ := Multisig.exec_ok hexec hold
    rw [hprovided] at hmem
    obtain ⟨p, hp, hlevel⟩ := List.mem_map.mp hmem
    exact (hgiven row).mp (h row hrow) p (List.mem_filter.mp hp).1 hlevel

/-- **Where a withdrawn approval counts no longer.**  In every run from empty
tables, a level that has been withdrawn last since the latest proposal of a
name counts no longer exactly where it has been withdrawn as often as approved
since then, or no proposal is stored; it has been whenever the proposal
requests it at most once. -/
theorem withdrawn_discounted {host : MultisigHost} {calls : List MultisigCall}
    {s : MultisigState} {proposer name : Name}
    (hrun : Run (MultisigStep host) .genesis calls s)
    (I : Incarnation calls proposer name) (level : PermissionLevel)
    (hwithdrawn : I.Withdrawn level) :
    (s.Discounts host proposer name level ↔
      s.proposalOf proposer name = none ∨
      I.after.countP (·.approves proposer name level) =
        I.after.countP (·.unapproves proposer name level)) ∧
    (I.requested.count level ≤ 1 → s.Discounts host proposer name level) := by
  have hbalanced : Balanced calls s proposer name := Balanced.run hrun
  have hpaired : Paired calls s proposer name := Paired.run hrun
  rw [MultisigState.discounts_iff (History.run hrun).noOld]
  rcases hpaired.rows with ⟨hgone, hcleared⟩ | ⟨_, row, _, hstored, hrow, _⟩
  · simp [hgone, hcleared]
  · have htallied := hbalanced I row hrow
    have hgiven := htallied.given level
    have hlisted := htallied.listed level
    have hasked : 0 < row.asked.count level :=
      List.count_pos_iff.mpr (htallied.withdrawn level hwithdrawn)
    simp only [hstored, hrow, Option.some.injEq, forall_eq', reduceCtorEq,
      false_or, ← List.count_eq_zero]
    constructor
    · omega
    · omega

/-- The approval that the system account gives below. -/
def approvingCall (slot : UInt32) : MultisigCall :=
  sampleCall systemAccount slot [] (.approve tokenAccount tokenAccount
    systemLevel none)

/-- The system account withdraws it. -/
def withdrawingCall : MultisigCall :=
  sampleCall systemAccount 4 [] (.unapprove tokenAccount tokenAccount
    systemLevel)

/-- The token account asks for some levels, the system account approves a few
times and then withdraws its approval. -/
def withdrawnCalls (requested : List PermissionLevel)
    (slots : List UInt32) : List MultisigCall :=
  sampleCall tokenAccount 1 [] (.propose tokenAccount tokenAccount requested
    [1]) :: (slots.map approvingCall ++ [withdrawingCall])

/-- The proposal of these calls. -/
def withdrawnProposal (requested : List PermissionLevel)
    (slots : List UInt32) :
    Incarnation (withdrawnCalls requested slots) tokenAccount tokenAccount where
  before := []
  ctx := _
  requested := requested
  trx := [1]
  after := slots.map approvingCall ++ [withdrawingCall]
  split := rfl
  latest c hc := by
    rintro ⟨_, _, hpropose⟩
    rcases List.mem_append.mp hc with hc | hc
    · obtain ⟨slot, _, rfl⟩ := List.mem_map.mp hc
      cases hpropose
    · rw [List.mem_singleton.mp hc] at hpropose
      cases hpropose

theorem withdrawnProposal_withdrawn (requested : List PermissionLevel)
    (slots : List UInt32) :
    (withdrawnProposal requested slots).Withdrawn systemLevel :=
  ⟨_, withdrawingCall, [], rfl, by decide +kernel, by simp⟩

theorem withdrawn_discounted_sample : ∃ s,
    Run (MultisigStep sampleHost) .genesis
      (withdrawnCalls [systemLevel] [2]) s ∧
    (s.approvalsOf tokenAccount tokenAccount).isSome ∧
    s.Discounts sampleHost tokenAccount tokenAccount systemLevel := by
  have hsample : Finishes ((withdrawnCalls [systemLevel] [2]).foldlM
      (fun (s : MultisigState) c => (s.perform sampleHost c).map (·.1))
      MultisigState.genesis)
      (fun s => (s.approvalsOf tokenAccount tokenAccount).isSome = true) := by
    decide +kernel
  obtain ⟨s, hcalls, happs⟩ := hsample
  have hrun := MultisigStep.run hcalls
  exact ⟨s, hrun, happs, (withdrawn_discounted hrun
    (withdrawnProposal [systemLevel] [2]) systemLevel
    (withdrawnProposal_withdrawn _ _)).2 (by decide +kernel)⟩

/-- **A withdrawn approval can count.**  A level that is requested twice and
approved twice is still given after it has been withdrawn, and `exec` passes it
to the host. -/
theorem withdrawn_approval_counts : ∃ s,
    Run (MultisigStep sampleHost) .genesis
      (withdrawnCalls [systemLevel, systemLevel] [2, 3]) s ∧
    (withdrawnProposal [systemLevel, systemLevel] [2, 3]).Withdrawn
      systemLevel ∧
    (∃ row, s.approvalsOf tokenAccount tokenAccount = some row ∧
      row.providedApprovals.map (·.level) = [systemLevel]) ∧
    ∃ s' x, s.perform sampleHost (sampleCall tokenAccount 5 [systemLevel]
        (.exec tokenAccount tokenAccount tokenAccount)) = .ok (s', some x) ∧
      x.provided = [systemLevel] := by
  have hsample : Finishes
      ((withdrawnCalls [systemLevel, systemLevel] [2, 3]).foldlM
        (fun (s : MultisigState) c => (s.perform sampleHost c).map (·.1))
        MultisigState.genesis)
      (fun s => (s.approvalsOf tokenAccount tokenAccount).map
          (fun row => row.providedApprovals.map (·.level)) =
            some [systemLevel] ∧
        Finishes (s.perform sampleHost (sampleCall tokenAccount 5
          [systemLevel] (.exec tokenAccount tokenAccount tokenAccount)))
          (fun r => r.2.map (·.provided) = some [systemLevel])) := by
    decide +kernel
  obtain ⟨s, hcalls, happs, ⟨s', y⟩, hexec, hy⟩ := hsample
  obtain ⟨row, hrow, hgiven⟩ := Option.map_eq_some_iff.mp happs
  obtain ⟨x, rfl, hprovided⟩ := Option.map_eq_some_iff.mp hy
  exact ⟨s, MultisigStep.run hcalls, withdrawnProposal_withdrawn _ _,
    ⟨row, hrow, hgiven⟩, s', x, hexec, hprovided⟩

end Inery
