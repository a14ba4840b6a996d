import IneryContracts.MultisigSafety
import Mathlib.Data.List.Perm.Basic

/-!
# Proposals and their approvals

A proposal and the row of its approvals are written and erased together,
approvals only move between the two lists of a row, and a proposal that leaves
the table was either sent or cancelled.  What one call can do to the rows of
one name is said once; the invariants of a history are read off it.
-/

namespace Inery

open GuardedStep LabelledRun

/-! ## Levels move between the lists -/

/-- Taking the first entry for a level out of a list takes out that level. -/
theorem perm_eraseP {l : List Approval} {level : PermissionLevel}
    (h : ∃ a ∈ l, a.level = level) :
    (l.map (·.level)).Perm
      (level :: (l.eraseP (fun a => a.level = level)).map (·.level)) := by
  induction l with
  | nil =>
      obtain ⟨_, hmem, _⟩ := h
      cases hmem
  | cons a l ih =>
      by_cases ha : a.level = level
      · simp [ha]
      · have hrest : ∃ b ∈ l, b.level = level := by
          obtain ⟨b, hb, hlevel⟩ := h
          rcases List.mem_cons.mp hb with rfl | hb
          · exact absurd hlevel ha
          · exact ⟨b, hb, hlevel⟩
        rw [List.eraseP_cons_of_neg (by simpa using ha), List.map_cons,
          List.map_cons]
        exact ((ih hrest).cons a.level).trans (.swap _ _ _)

namespace ApprovalsInfo

variable {a : ApprovalsInfo} {level : PermissionLevel} {now : ℤ}

/-- The levels of a row, asked for or given. -/
def levels (a : ApprovalsInfo) : List PermissionLevel :=
  a.requestedApprovals.map (·.level) ++ a.providedApprovals.map (·.level)

theorem grant_levels (h : ∃ r ∈ a.requestedApprovals, r.level = level) :
    (a.grant level now).levels.Perm a.levels := by
  have hrequested := (perm_eraseP h).append_right
    (a.providedApprovals.map (·.level))
  unfold levels grant
  rw [List.map_append, ← List.append_assoc]
  exact (List.perm_append_singleton level _).trans hrequested.symm

theorem revoke_levels (h : ∃ p ∈ a.providedApprovals, p.level = level) :
    (a.revoke level now).levels.Perm a.levels := by
  have hprovided := (perm_eraseP h).append_left
    (a.requestedApprovals.map (·.level))
  unfold levels revoke
  rw [List.map_append, List.append_assoc]
  exact hprovided.symm

end ApprovalsInfo

/-! ## What one call does to the rows of one name -/

namespace MultisigCall

variable {c : MultisigCall} {proposer name : Name}

/-- The call proposes a transaction under the name. -/
def proposes (proposer name : Name) (c : MultisigCall) : Bool :=
  match c.action with
  | .propose p n _ _ => decide (p = proposer ∧ n = name)
  | _ => false

/-- The call executes the transaction proposed under the name. -/
def executes (proposer name : Name) (c : MultisigCall) : Bool :=
  match c.action with
  | .exec p n _ => decide (p = proposer ∧ n = name)
  | _ => false

theorem proposes_iff : c.proposes proposer name ↔ c.Proposes proposer name := by
  obtain ⟨ctx, action⟩ := c
  cases action with
  | propose p n requested trx =>
      simp only [proposes, Proposes, decide_eq_true_eq]
      constructor
      · rintro ⟨rfl, rfl⟩
        exact ⟨requested, trx, rfl⟩
      · rintro ⟨_, _, heq⟩
        cases heq
        exact ⟨rfl, rfl⟩
  | _ => simp [proposes, Proposes]

end MultisigCall

/-- The transaction of a proposal has expired when an action runs. -/
def Proposal.Expired (host : MultisigHost) (ctx : MultisigCtx)
    (prop : Proposal) : Prop :=
  ∃ expiration, host.headerExpiration prop.packedTransaction = some expiration ∧
    (expiration.toNat : ℤ) < ctx.secSinceEpoch

/-- What a call does to the proposal of one name and to its approvals. -/
inductive Touch (host : MultisigHost) (s s' : MultisigState)
    (call : MultisigCall) (proposer name : Name) : Prop
  | proposed (requested : List PermissionLevel) (trx : List UInt8)
      (action : call.action = .propose proposer name requested trx)
      (fresh : s.proposalOf proposer name = none)
      (stored : s'.proposalOf proposer name = some ⟨name, trx⟩)
      (asked : s'.approvalsOf proposer name =
        some ⟨name, requested.map (fun level => ⟨level, 0⟩), []⟩)
  | moved (row row' : ApprovalsInfo)
      (quiet : call.proposes proposer name = false ∧
        call.executes proposer name = false)
      (kept : s'.proposalOf proposer name = s.proposalOf proposer name)
      (found : s.approvalsOf proposer name = some row)
      (stored : s'.approvalsOf proposer name = some row')
      (levels : row'.levels.Perm row.levels)
  | executed (prop : Proposal) (executer : Name)
      (action : call.action = .exec proposer name executer)
      (found : s.proposalOf proposer name = some prop)
      (gone : s'.proposalOf proposer name = none)
      (cleared : s'.approvalsOf proposer name = none)
  | cancelled (prop : Proposal) (canceler : Name)
      (action : call.action = .cancel proposer name canceler)
      (authorized : call.ctx.HasAuth canceler)
      (found : s.proposalOf proposer name = some prop)
      (allowed : canceler = proposer ∨ prop.Expired host call.ctx)
      (gone : s'.proposalOf proposer name = none)
      (cleared : s'.approvalsOf proposer name = none)
  | untouched
      (quiet : call.proposes proposer name = false ∧
        call.executes proposer name = false)
      (kept : s'.proposalOf proposer name = s.proposalOf proposer name)
      (still : s'.approvalsOf proposer name = s.approvalsOf proposer name)

section Steps

variable {host : MultisigHost} {calls : List MultisigCall} {call : MultisigCall}
  {ctx : MultisigCtx} {s s' : MultisigState} {proposer name : Name}

private theorem propose_fresh {requested : List PermissionLevel}
    {trx : List UInt8}
    (h : Multisig.propose host ctx s proposer name requested trx = .ok s') :
    s.proposalOf proposer name = none := by
  simp only [Multisig.propose, bind_eq_ok, Ctx.requireAuth_eq_ok, check_eq_ok,
    emplace_eq_ok, exists_const] at h
  obtain ⟨_, _, _, _, _, _, _, ⟨hnone, _⟩, _⟩ := h
  exact hnone

private theorem cancel_allowed {canceler : Name}
    (h : Multisig.cancel host ctx s proposer name canceler = .ok s') :
    ctx.HasAuth canceler ∧ ∃ prop, s.proposalOf proposer name = some prop ∧
      (canceler = proposer ∨ prop.Expired host ctx) := by
  simp only [Multisig.cancel, bind_eq_ok, Ctx.requireAuth_eq_ok,
    tableGet_eq_ok, exists_const] at h
  obtain ⟨hauth, prop, hprop, _, hcanceler, _⟩ := h
  refine ⟨hauth, prop, hprop, ?_⟩
  by_cases hown : canceler = proposer
  · exact .inl hown
  · simp only [Multisig.checkCanceler, Multisig.unpackExpiration, ne_eq, hown,
      not_false_eq_true, if_true, bind_eq_ok, orStop_eq_ok,
      check_eq_ok] at hcanceler
    exact .inr hcanceler

/-- What is written under one name leaves every other name alone. -/
private theorem Wrote.touch {p n : Name} {prop : Option Proposal}
    {apps : Option ApprovalsInfo} (h : Wrote s s' p n prop apps)
    (hproposes : call.proposes proposer name → p = proposer ∧ n = name)
    (hexecutes : call.executes proposer name → p = proposer ∧ n = name)
    (hown : p = proposer → n = name →
      s'.proposalOf proposer name = prop →
      s'.approvalsOf proposer name = apps →
      Touch host s s' call proposer name) :
    Touch host s s' call proposer name := by
  have hprop := h.proposals proposer name
  have happs := h.approvals proposer name
  by_cases hkey : p = proposer ∧ n = name
  · obtain ⟨rfl, rfl⟩ := hkey
    rw [if_pos ⟨rfl, rfl⟩] at hprop happs
    exact hown rfl rfl hprop happs
  · have hne : ¬ (proposer = p ∧ name = n) :=
      fun heq => hkey ⟨heq.1.symm, heq.2.symm⟩
    rw [if_neg hne] at hprop happs
    have hquiet : call.proposes proposer name = false ∧
        call.executes proposer name = false :=
      ⟨Bool.eq_false_iff.mpr (fun hp => hkey (hproposes hp)),
        Bool.eq_false_iff.mpr (fun he => hkey (hexecutes he))⟩
    exact .untouched hquiet hprop happs

/-- **What a call does to the rows of a name.** -/
theorem Multisig.apply_touch {action : MultisigAction} {x : Option Execution}
    (hold : s.NoOld) (h : Multisig.apply host ctx s action = .ok (s', x)) :
    Touch host s s' ⟨ctx, action⟩ proposer name := by
  cases action with
  | propose p n requested trx =>
      simp only [Multisig.apply, bind_eq_ok, pure_eq_ok, Prod.mk.injEq] at h
      obtain ⟨_, hpropose, rfl, _⟩ := h
      refine (Multisig.propose_ok hpropose).touch
        (by simp [MultisigCall.proposes]) (by simp [MultisigCall.executes]) ?_
      rintro rfl rfl hprop happs
      exact .proposed requested trx rfl (propose_fresh hpropose) hprop happs
  | approve p n level hash =>
      simp only [Multisig.apply, bind_eq_ok, pure_eq_ok, Prod.mk.injEq] at h
      obtain ⟨_, happrove, rfl, _⟩ := h
      obtain ⟨_, _, row, hrow, hlevel, hw⟩ := Multisig.approve_ok happrove hold
      refine hw.touch (by simp [MultisigCall.proposes])
        (by simp [MultisigCall.executes]) ?_
      rintro rfl rfl hprop happs
      exact .moved row _ ⟨rfl, rfl⟩ hprop hrow happs
        (ApprovalsInfo.grant_levels hlevel)
  | unapprove p n level =>
      simp only [Multisig.apply, bind_eq_ok, pure_eq_ok, Prod.mk.injEq] at h
      obtain ⟨_, hunapprove, rfl, _⟩ := h
      obtain ⟨row, hrow, hlevel, hw⟩ := Multisig.unapprove_ok hunapprove hold
      refine hw.touch (by simp [MultisigCall.proposes])
        (by simp [MultisigCall.executes]) ?_
      rintro rfl rfl hprop happs
      exact .moved row _ ⟨rfl, rfl⟩ hprop hrow happs
        (ApprovalsInfo.revoke_levels hlevel)
  | cancel p n canceler =>
      simp only [Multisig.apply, bind_eq_ok, pure_eq_ok, Prod.mk.injEq] at h
      obtain ⟨_, hcancel, rfl, _⟩ := h
      refine (Multisig.cancel_ok hcancel hold).touch
        (by simp [MultisigCall.proposes]) (by simp [MultisigCall.executes]) ?_
      rintro rfl rfl hprop happs
      obtain ⟨hauth, prop, hfound, hallowed⟩ := cancel_allowed hcancel
      exact .cancelled prop canceler rfl hauth hfound hallowed hprop happs
  | exec p n executer =>
      simp only [Multisig.apply, bind_eq_ok, pure_eq_ok, Prod.mk.injEq] at h
      obtain ⟨⟨_, y⟩, hexec, rfl, _⟩ := h
      obtain ⟨⟨prop, _, hfound, _⟩, hw⟩ := Multisig.exec_ok hexec hold
      refine hw.touch (by simp [MultisigCall.proposes])
        (by simp [MultisigCall.executes]) ?_
      rintro rfl rfl hprop happs
      exact .executed prop executer rfl hfound hprop happs
  | invalidate account =>
      simp only [Multisig.apply, bind_eq_ok, pure_eq_ok, Prod.mk.injEq] at h
      obtain ⟨_, hinvalidate, rfl, _⟩ := h
      rw [Multisig.invalidate_ok hinvalidate]
      exact .untouched ⟨rfl, rfl⟩ rfl rfl

/-- A call that succeeds touches the rows of a name as its action does. -/
theorem MultisigStep.touch (hold : s.NoOld)
    (h : MultisigStep host s call s') :
    Touch host s s' call proposer name := by
  obtain ⟨x, hx⟩ := h
  simp only [MultisigState.perform, bind_eq_ok, require_eq_ok, pure_eq_ok,
    Prod.mk.injEq, exists_const] at hx
  obtain ⟨_, ⟨s₁, y⟩, happly, rfl, _⟩ := hx
  -- the slot that a call leaves is in none of the rows
  have htouch : Touch host s s₁ ⟨call.ctx, call.action⟩ proposer name :=
    Multisig.apply_touch hold happly
  cases htouch with
  | proposed requested trx action fresh stored asked =>
      exact .proposed requested trx action fresh stored asked
  | moved row row' quiet kept found stored levels =>
      exact .moved row row' quiet kept found stored levels
  | executed prop executer action found gone cleared =>
      exact .executed prop executer action found gone cleared
  | cancelled prop canceler action authorized found allowed gone cleared =>
      exact .cancelled prop canceler action authorized found allowed gone
        cleared
  | untouched quiet kept still => exact .untouched quiet kept still

/-! ## Rows and their history -/

/-- The latest proposal of a name, when one more call has been made: it is that
call, or nothing has been proposed by it. -/
theorem Incarnation.of_snoc (I : Incarnation (calls ++ [call]) proposer name) :
    (call.action = .propose proposer name I.requested I.trx ∧ I.after = []) ∨
    ∃ J : Incarnation calls proposer name, ¬ call.Proposes proposer name ∧
      I.requested = J.requested ∧ I.after = J.after ++ [call] := by
  have hsplit := I.split
  rcases List.eq_nil_or_concat I.after with hnil | ⟨l, c, hafter⟩
  · rw [hnil] at hsplit
    obtain ⟨_, hcall⟩ := List.append_inj' hsplit rfl
    exact .inl ⟨congrArg MultisigCall.action (List.cons.inj hcall).1, hnil⟩
  · rw [hafter, List.concat_eq_append, ← List.cons_append,
      ← List.append_assoc] at hsplit
    obtain ⟨hcalls, hcall⟩ := List.append_inj' hsplit rfl
    cases hcall
    rw [List.concat_eq_append] at hafter
    have hmem : call ∈ I.after := by
      rw [hafter]
      exact List.mem_append_right _ (List.mem_singleton_self _)
    let J : Incarnation calls proposer name :=
      { before := I.before
        ctx := I.ctx
        requested := I.requested
        trx := I.trx
        after := l
        split := hcalls
        latest := fun d hd => I.latest d (by
          rw [hafter]
          exact List.mem_append_left _ hd) }
    exact .inr ⟨J, I.latest call hmem, rfl, hafter⟩

/-- One if a proposal is stored under the name. -/
def MultisigState.pending (s : MultisigState) (proposer name : Name) : ℕ :=
  if (s.proposalOf proposer name).isSome then 1 else 0

/-- The rows of a name are those of its latest proposal, with the levels that
it asked for, and no proposal has been executed twice. -/
structure Paired (calls : List MultisigCall) (s : MultisigState)
    (proposer name : Name) : Prop where
  rows : s.proposalOf proposer name = none ∧
      s.approvalsOf proposer name = none ∨
    ∃ prop apps, ∃ I : Incarnation calls proposer name,
      s.proposalOf proposer name = some prop ∧
      s.approvalsOf proposer name = some apps ∧
      prop.packedTransaction = I.trx ∧ apps.levels.Perm I.requested
  executed : calls.countP (·.executes proposer name) +
    s.pending proposer name ≤ calls.countP (·.proposes proposer name)
  once : ∀ I : Incarnation calls proposer name,
    I.after.countP (·.executes proposer name) + s.pending proposer name ≤ 1

theorem paired_genesis : Paired [] .genesis proposer name where
  rows := .inl ⟨rfl, rfl⟩
  executed := le_refl 0
  once I := by
    have hsplit := I.split
    simp at hsplit

/-- A proposal under a free name. -/
private theorem Paired.proposed (h : Paired calls s proposer name)
    {requested : List PermissionLevel} {trx : List UInt8}
    (haction : call.action = .propose proposer name requested trx)
    (hfresh : s.proposalOf proposer name = none)
    (hstored : s'.proposalOf proposer name = some ⟨name, trx⟩)
    (hasked : s'.approvalsOf proposer name =
      some ⟨name, requested.map (fun level => ⟨level, 0⟩), []⟩) :
    Paired (calls ++ [call]) s' proposer name := by
  obtain ⟨ctx, action⟩ := call
  obtain rfl : action = .propose proposer name requested trx := haction
  have hbefore := h.executed
  rw [MultisigState.pending, hfresh] at hbefore
  refine ⟨.inr ⟨_, _, ⟨calls, ctx, requested, trx, [], rfl, by simp⟩, hstored,
    hasked, rfl, ?_⟩, ?_, fun I => ?_⟩
  · simp [ApprovalsInfo.levels, Function.comp_def]
  · rw [MultisigState.pending, hstored]
    simp only [List.countP_append, List.countP_singleton,
      MultisigCall.executes, MultisigCall.proposes] at hbefore ⊢
    simp at hbefore ⊢
    omega
  · rcases I.of_snoc with ⟨_, hnil⟩ | ⟨_, hquiet, _, _⟩
    · rw [hnil, MultisigState.pending, hstored]
      simp
    · exact absurd ⟨requested, trx, rfl⟩ hquiet

/-- A call that proposes nothing under the name counts an execution only where
it takes the proposal away. -/
private theorem Paired.extend (h : Paired calls s proposer name)
    (hquiet : call.proposes proposer name = false)
    (hcount : (if call.executes proposer name then 1 else 0) +
      s'.pending proposer name ≤ s.pending proposer name)
    (hrows : s'.proposalOf proposer name = none ∧
        s'.approvalsOf proposer name = none ∨
      s'.proposalOf proposer name = s.proposalOf proposer name ∧
        ∃ apps apps', s.approvalsOf proposer name = some apps ∧
          s'.approvalsOf proposer name = some apps' ∧
          apps'.levels.Perm apps.levels) :
    Paired (calls ++ [call]) s' proposer name := by
  have hnot : ¬ call.Proposes proposer name := by
    rw [← MultisigCall.proposes_iff, hquiet]
    exact Bool.false_ne_true
  refine ⟨?_, ?_, fun I => ?_⟩
  · rcases hrows with hgone | ⟨hkept, apps, apps', happs, happs', hperm⟩
    · exact .inl hgone
    rcases h.rows with ⟨_, hnone⟩ | ⟨prop, a, J, hprop, ha, htrx, hlevels⟩
    · rw [hnone] at happs
      cases happs
    obtain rfl : a = apps := Option.some.inj (ha.symm.trans happs)
    exact .inr ⟨prop, apps', J.extend call hnot, hkept.trans hprop, happs',
      htrx, hperm.trans hlevels⟩
  · have hexecuted := h.executed
    rw [List.countP_append, List.countP_append, List.countP_singleton,
      List.countP_singleton, hquiet]
    simp only [Bool.false_eq_true, if_false]
    omega
  · rcases I.of_snoc with ⟨hproposes, _⟩ | ⟨J, _, _, hafter⟩
    · exact absurd ⟨_, _, hproposes⟩ hnot
    · have honce := h.once J
      rw [hafter, List.countP_append, List.countP_singleton]
      omega

/-- **Every call keeps the rows of a name paired.** -/
theorem Paired.step (h : Paired calls s proposer name)
    (ht : Touch host s s' call proposer name) :
    Paired (calls ++ [call]) s' proposer name := by
  cases ht with
  | proposed requested trx action fresh stored asked =>
      exact h.proposed action fresh stored asked
  | moved row row' quiet kept found stored levels =>
      refine h.extend quiet.1 ?_
        (.inr ⟨kept, row, row', found, stored, levels⟩)
      simp [MultisigState.pending, quiet.2, kept]
  | executed prop executer action found gone cleared =>
      refine h.extend ?_ ?_ (.inl ⟨gone, cleared⟩)
      · simp [MultisigCall.proposes, action]
      · simp [MultisigState.pending, MultisigCall.executes, action, found,
          gone]
  | cancelled prop canceler action authorized found allowed gone cleared =>
      refine h.extend ?_ ?_ (.inl ⟨gone, cleared⟩)
      · simp [MultisigCall.proposes, action]
      · simp [MultisigState.pending, MultisigCall.executes, action, gone]
  | untouched quiet kept still =>
      have hcount : (if call.executes proposer name then 1 else 0) +
          s'.pending proposer name ≤ s.pending proposer name := by
        simp [MultisigState.pending, quiet.2, kept]
      rcases h.rows with ⟨hprop, happs⟩ | ⟨_, apps, _, _, happs, _⟩
      · exact h.extend quiet.1 hcount
          (.inl ⟨kept.trans hprop, still.trans happs⟩)
      · exact h.extend quiet.1 hcount
          (.inr ⟨kept, apps, apps, happs, still.trans happs, .refl _⟩)

/-- The rows of every name are paired after every run. -/
theorem Paired.run (hrun : Run (MultisigStep host) .genesis calls s) :
    Paired calls s proposer name := by
  have hboth : History host calls s ∧ Paired calls s proposer name :=
    hrun.history
      (H := fun ds u => History host ds u ∧ Paired ds u proposer name)
      ⟨history_genesis, paired_genesis⟩
      (fun _ _ _ _ h hstep =>
        ⟨h.1.step hstep, h.2.step (hstep.touch h.1.noOld)⟩)
  exact hboth.2

end Steps

/-- **Proposals and their approvals stay paired, and none executes twice.**  In
every run from empty tables, a proposal is stored exactly where a row of
approvals is, with the bytes of the latest proposal of its name and the levels
that it requested; a name is executed at most as often as it is proposed, and
at most once after its latest proposal, with its very bytes; and a proposal
that has not expired leaves the table only when it is executed, or cancelled by
its own proposer. -/
theorem multisig_tables_paired {host : MultisigHost}
    {calls : List MultisigCall} {s : MultisigState}
    (hrun : Run (MultisigStep host) .genesis calls s) (proposer name : Name) :
    ((s.proposalOf proposer name).isSome ↔
      (s.approvalsOf proposer name).isSome) ∧
    (∀ prop apps, s.proposalOf proposer name = some prop →
      s.approvalsOf proposer name = some apps →
      ∃ I : Incarnation calls proposer name,
        prop.packedTransaction = I.trx ∧
        (apps.requestedApprovals.map (·.level) ++
          apps.providedApprovals.map (·.level)).Perm I.requested) ∧
    calls.countP (·.executes proposer name) ≤
      calls.countP (·.proposes proposer name) ∧
    (∀ I : Incarnation calls proposer name,
      I.after.countP (·.executes proposer name) ≤ 1) ∧
    (∀ ctx executer s' x,
      s.perform host ⟨ctx, .exec proposer name executer⟩ = .ok (s', some x) →
      ∃ I : Incarnation calls proposer name, x.packedTransaction = I.trx) ∧
    ∀ call s' prop, MultisigStep host s call s' →
      s.proposalOf proposer name = some prop → ¬ prop.Expired host call.ctx →
      s'.proposalOf proposer name ≠ some prop →
      (∃ executer, call.action = .exec proposer name executer) ∨
      call.action = .cancel proposer name proposer ∧
        call.ctx.HasAuth proposer := by
  have hold := (History.run hrun).noOld
  have hpaired : Paired calls s proposer name := Paired.run hrun
  have hstored : ∀ prop, s.proposalOf proposer name = some prop →
      ∃ apps, ∃ I : Incarnation calls proposer name,
        s.approvalsOf proposer name = some apps ∧
        prop.packedTransaction = I.trx ∧ apps.levels.Perm I.requested := by
    intro prop hprop
    rcases hpaired.rows with ⟨hnone, _⟩ | ⟨p, apps, I, hp, happs, hties⟩
    · rw [hnone] at hprop
      cases hprop
    · obtain rfl : p = prop := Option.some.inj (hp.symm.trans hprop)
      exact ⟨apps, I, happs, hties⟩
  refine ⟨?_, fun prop apps hprop happs => ?_, ?_, fun I => ?_,
    fun ctx executer s' x hexec => ?_, ?_⟩
  · rcases hpaired.rows with ⟨hp, ha⟩ | ⟨p, apps, _, hp, ha, _⟩ <;>
      simp [hp, ha]
  · obtain ⟨a, I, ha, hties⟩ := hstored prop hprop
    obtain rfl : a = apps := Option.some.inj (ha.symm.trans happs)
    exact ⟨I, hties⟩
  · have hexecuted := hpaired.executed
    omega
  · have honce := hpaired.once I
    omega
  · simp only [MultisigState.perform, Multisig.apply, bind_eq_ok,
      require_eq_ok, pure_eq_ok, Prod.mk.injEq, exists_const] at hexec
    obtain ⟨_, _, ⟨⟨_, y⟩, hexec, rfl⟩, _, hy⟩ := hexec
    obtain rfl : y = x := Option.some.inj hy
    obtain ⟨⟨prop, _, hprop, _, htrx, _⟩, _⟩ := Multisig.exec_ok hexec hold
    obtain ⟨_, I, _, hties, _⟩ := hstored prop hprop
    exact ⟨I, htrx.trans hties⟩
  · intro call s' prop hstep hprop hlive hleft
    have htouch : Touch host s s' call proposer name := hstep.touch hold
    cases htouch with
    | proposed requested trx action fresh stored asked =>
        rw [fresh] at hprop
        cases hprop
    | moved row row' quiet kept found stored levels =>
        exact absurd (kept.trans hprop) hleft
    | executed p executer action found gone cleared =>
        exact .inl ⟨executer, action⟩
    | cancelled p canceler action authorized found allowed gone cleared =>
        obtain rfl : p = prop := Option.some.inj (found.symm.trans hprop)
        rcases allowed with rfl | hexpired
        · exact .inr ⟨action, authorized⟩
        · exact absurd hexpired hlive
    | untouched quiet kept still => exact absurd (kept.trans hprop) hleft

theorem multisig_tables_paired_sample :
    ∃ s, Run (MultisigStep sampleHost) .genesis approvedCalls s ∧
      (s.approvalsOf tokenAccount tokenAccount).isSome ∧
      (s.proposalOf tokenAccount tokenAccount).isSome ∧
      approvedCalls.countP (·.executes tokenAccount tokenAccount) ≤
        approvedCalls.countP (·.proposes tokenAccount tokenAccount) := by
  have hsample : Finishes (approvedCalls.foldlM
      (fun (s : MultisigState) c => (s.perform sampleHost c).map (·.1))
      MultisigState.genesis)
      (fun s => (s.approvalsOf tokenAccount tokenAccount).isSome = true) := by
    decide +kernel
  obtain ⟨s, hcalls, happs⟩ := hsample
  have hrun := MultisigStep.run hcalls
  obtain ⟨hpaired, _, hcount, _⟩ :=
    multisig_tables_paired hrun tokenAccount tokenAccount
  exact ⟨s, hrun, happs, hpaired.mpr happs, hcount⟩

end Inery
