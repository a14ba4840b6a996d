import IneryContracts.BlockTally
import IneryContracts.ProposedSchedules
import IneryContracts.ShareAccounting

/-!
# Before the activation

Until enough stake has voted, the presses stand still: no bucket is filled, no
block counts, no schedule is proposed, and a claim moves no token.  One step of
the run turns them on, and the time and the stake that it notes stay.
-/

namespace Inery

open GuardedStep LedgerVector LabelledRun MachineInt

namespace Election

variable {env : Env} {ctx : Ctx} {e e' : Election} {k proxy : Name}
  {producers : List Name} {voting : Bool}

/-! ## The step that activates -/

/-- What the chain notes of its activation: its time and the stake that has
voted for the first time until then. -/
def activation (e : Election) : ℤ × ℤ :=
  (e.threshActivatedStakeTime, e.totalActivatedStake)

/-- `e'` is activated by an action at `ct`, and no sooner. -/
structure ActivatedAt (ct : ℤ) (e' : Election) : Prop where
  time : e'.threshActivatedStakeTime = ct
  stake : minActivatedStake ≤ e'.totalActivatedStake

/-- An activated chain stays as it is, and another one is activated at the time
of the action or not at all. -/
def Turns (ct : ℤ) (e e' : Election) : Prop :=
  (e.threshActivatedStakeTime ≠ 0 → e'.activation = e.activation) ∧
  (e.threshActivatedStakeTime = 0 →
    e'.threshActivatedStakeTime = 0 ∨ ActivatedAt ct e')

theorem Turns.of_same {ct : ℤ} (h : e'.activation = e.activation) :
    Turns ct e e' := by
  refine ⟨fun _ => h, fun hopen => .inl ?_⟩
  have hthresh : e'.threshActivatedStakeTime = e.threshActivatedStakeTime :=
    congrArg Prod.fst h
  rw [hthresh, hopen]

theorem Turns.trans {ct : ℤ} {e₁ e₂ e₃ : Election} (hct : ct ≠ 0)
    (h : Turns ct e₁ e₂) (h' : Turns ct e₂ e₃) : Turns ct e₁ e₃ := by
  refine ⟨fun hset => ?_, fun hopen => ?_⟩
  · have hsame := h.1 hset
    have hset' : e₂.threshActivatedStakeTime ≠ 0 := by
      have hthresh : e₂.threshActivatedStakeTime =
          e₁.threshActivatedStakeTime := congrArg Prod.fst hsame
      rw [hthresh]
      exact hset
    exact (h'.1 hset').trans hsame
  · rcases h.2 hopen with hopen' | hturned
    · exact h'.2 hopen'
    · have hsame := h'.1 (hturned.time.trans_ne hct)
      exact .inr ⟨(congrArg Prod.fst hsame).trans hturned.time,
        hturned.stake.trans_eq (congrArg Prod.snd hsame).symm⟩

theorem activateStake_turns (v : VoterInfo) :
    Turns ctx.currentTimePoint e (e.activateStake ctx v) := by
  unfold activateStake
  split
  · next hfirst =>
      refine ⟨fun hset => absurd hfirst.1 hset, fun hopen => ?_⟩
      by_cases hmin : i64 (e.totalActivatedStake + v.staked) ≥ minActivatedStake
      · exact .inr ⟨if_pos hmin, hmin⟩
      · exact .inl ((if_neg hmin).trans hopen)
  · exact .of_same rfl

theorem SameStanding.activation (h : SameStanding e e') :
    e'.activation = e.activation :=
  Prod.ext h.thresh h.activated

theorem updateVotes_turns
    (h : e.updateVotes env ctx k proxy producers voting = .ok e') :
    Turns ctx.currentTimePoint e e' := by
  obtain ⟨v, _, hstanding⟩ := updateVotes_standing h
  exact (activateStake_turns v).trans (System.currentTimePoint_pos ctx).ne'
    (.of_same hstanding.activation)

/-- **One call and the activation.** -/
theorem PollStep.turns {p : Poll} (h : PollStep env ctx e p e') :
    Turns ctx.currentTimePoint e e' := by
  cases p with
  | other =>
      have hsame : SameVotes e e' := h
      exact .of_same (Prod.ext hsame.thresh hsame.activated)
  | flag account =>
      obtain ⟨_, _, hflag⟩ := h
      obtain ⟨flags, ⟨v, hv, hk, rfl⟩ | ⟨hnone, rfl⟩⟩ :=
        System.setManaged_row hflag
      · exact .of_same rfl
      · exact .of_same rfl
  | stake owner total =>
      obtain ⟨v, _, ⟨_, _, rfl⟩ | ⟨_, hvotes⟩⟩ := updateVotingPower_cases h
      · exact .of_same rfl
      · exact updateVotes_turns (e := { e with voters := e.voters.put v })
          hvotes
  | vote voter proxy producers => exact updateVotes_turns h.2
  | proxy x isproxy =>
      obtain ⟨v, _, _, _, hprop⟩ | ⟨_, rfl⟩ := regproxy_cases h
      · exact .of_same
          (propagateWeightChange_record env ctx _ _ _ _ hprop).activation
      · exact .of_same rfl

end Election

/-! ## Nothing is paid -/

/-- Nothing waits to be paid, and no schedule has been proposed. -/
structure SysState.Dormant (s : SysState) : Prop where
  fill : s.pay.lastPervoteBucketFill = 0
  pervote : s.pay.pervoteBucket = 0
  perblock : s.pay.perblockBucket = 0
  blocks : s.pay.totalUnpaidBlocks = 0
  unpaid : s.unpaid = 0
  proposed : s.proposed = []
  outbox : s.outbox = []

namespace SysState

variable {ctx : Ctx} {t : TokenState} {s s' : SysState}

theorem Dormant.not_due (hs : s.Dormant) (ct : ℤ) : ¬ s.pay.Due ct := by
  unfold PayState.Due
  rw [hs.fill]
  omega

/-- No bucket is filled. -/
theorem Dormant.fillBuckets (hs : s.Dormant)
    (h : System.fillBuckets ctx t s = .ok s') : s' = s := by
  obtain ⟨core, supply, _, _, _, rfl⟩ := System.fillBuckets_ok h
  rw [PayState.inflation_of_not_due _ (hs.not_due _), PayState.filledAt,
    if_neg (hs.not_due _)]
  simp [System.inflationActions]

/-- A producer has no blocks that wait for their pay. -/
theorem Dormant.unpaidBlocks (hs : s.Dormant) {k : Name} {p : ProducerInfo}
    (hp : s.election.producers.find k = some p) : p.unpaidBlocks = 0 := by
  have hview : s.unpaid k = p.unpaidBlocks := view_of_find hp
  have hzero : s.unpaid k = 0 := congrFun hs.unpaid k
  exact_mod_cast hview.symm.trans hzero

/-- **A claim finds nothing to pay.** -/
theorem Dormant.claimrewards (hs : s.Dormant) (hfactors : s.pay.FactorsOk)
    {owner : Name} (h : System.claimrewards ctx t s owner = .ok s')
    (hproposed : s'.proposed = s.proposed) : s'.Dormant := by
  obtain ⟨p, hpaid, houtbox, _⟩ := System.claimrewards_settled hfactors h
  obtain hfilled : p.filled = s := hs.fillBuckets hpaid.fill
  have hblocks := hs.unpaidBlocks hpaid.row
  have hperblock : p.perblock = 0 := by
    unfold System.Payout.perblock PayState.blockPay
    rw [hfilled, hs.blocks]
    rfl
  have hpervote : p.pervote = 0 := by
    have hvote := hpaid.votePay
    rw [hfilled] at hvote
    rcases hvote with hzero | ⟨_, ⟨_, hle⟩ | ⟨_, _, heq⟩⟩
    · exact hzero
    · rw [hs.pervote, Int.cast_zero] at hle
      linarith
    · rw [heq, hs.pervote]
      simp
  have hactions : p.actions owner = [] := by
    rw [System.Payout.actions, hperblock, hpervote]
    rfl
  have hpay := hpaid.pay
  rw [hfilled, hperblock, hpervote, hblocks, hs.perblock, hs.pervote,
    hs.blocks] at hpay
  constructor
  · rw [hpay]
    exact hs.fill
  · rw [hpay]
    simp [truncate]
  · rw [hpay]
    rfl
  · rw [hpay]
    rfl
  · rw [hpaid.unpaid, hblocks, hs.unpaid]
    simp
  · rw [hproposed, hs.proposed]
  · rw [houtbox, hfilled, hs.outbox, hactions]
    rfl

/-- A block before the activation does nothing. -/
theorem Dormant.onblock (hs : s.Dormant)
    (hopen : s.election.threshActivatedStakeTime = 0) {timestamp : UInt32}
    {producer : Name}
    (h : System.onblock ctx s timestamp producer = .ok s') : s'.Dormant := by
  simp only [System.onblock, bind_eq_ok] at h
  obtain ⟨_, _, h⟩ := h
  rw [if_pos hopen] at h
  cases h
  exact ⟨hs.fill, hs.pervote, hs.perblock, hs.blocks, hs.unpaid, hs.proposed,
    hs.outbox⟩

end SysState

/-! ## Runs -/

namespace Chain

variable {env : Env} {c c' : Chain} {e : Event} {es : List Event}

/-- The stake that activates the chain has not yet voted. -/
def Waits (c : Chain) : Prop := c.sys.election.threshActivatedStakeTime = 0

/-- **One event and the activation.** -/
theorem step_turns (h : Step env c e c') : Election.Turns
    e.ctx.currentTimePoint c.sys.election c'.sys.election := by
  obtain ⟨ps, _, hrun⟩ := step_polls h
  refine hrun.invariant
    (I := Election.Turns e.ctx.currentTimePoint c.sys.election)
    (fun _ => True) ?_ (fun _ _ => trivial) (.of_same rfl)
  intro _ p _ _ hturns hpoll
  exact hturns.trans (System.currentTimePoint_pos e.ctx).ne' hpoll.turns

theorem step_outbox (h : Step env c e c') (hc : c.sys.outbox = []) :
    c'.sys.outbox = [] := by
  obtain ⟨_, _, ⟨ctx, a, _, hsys, _⟩ | ⟨ctx, a, s, _, _, _, hsys⟩ |
    ⟨slot, isAccount, owner, _, ⟨s, _, _, hsys⟩ | ⟨_, hsys⟩⟩⟩ := step_cases h
  · rw [hsys, hc]
  · rw [hsys]
  · rw [hsys]
  · rw [hsys]
    exact hc

/-- A claim in a dormant chain, with its inline actions. -/
theorem claim_dormant (hc : c.sys.Dormant) (hranged : c.sys.pay.Ranged)
    {ctx : Ctx} {owner : Name}
    (h : Step env c (.system ctx (.claimrewards owner)) c') :
    c'.token = c.token ∧ c'.sys.Dormant := by
  obtain ⟨s, hclaim, hsent, hsys⟩ := step_apply h
  have hproposed := (System.apply_schedule hclaim (by simp)).2
  have hs := hc.claimrewards hranged.factors hclaim hproposed
  rw [hs.outbox] at hsent
  refine ⟨(Except.ok.inj hsent).symm, ?_⟩
  rw [hsys]
  exact ⟨hs.fill, hs.pervote, hs.perblock, hs.blocks, hs.unpaid, hs.proposed,
    rfl⟩

/-- **One event in a chain that waits.** -/
theorem step_dormant (hc : c.sys.Dormant) (hranged : c.sys.pay.Ranged)
    (hwaits : c.Waits) (h : Step env c e c') : c'.sys.Dormant := by
  have hproposed : c'.sys.proposed = [] := by
    rcases (step_schedule h).2 with ⟨hsame, _⟩ | ⟨_, _, _, _, hupdates, _⟩
    · rw [hsame, hc.proposed]
    · exact absurd hwaits hupdates.1
  have houtbox := step_outbox h hc.outbox
  rcases step_pay h with ⟨_, hsame⟩ | ⟨ctx, timestamp, producer, rfl, _⟩ |
    ⟨_, hunpaid, _, _, _, _, hpay⟩ | hclaim
  · constructor
    · rw [hsame.pay, hc.fill]
    · rw [hsame.pay, hc.pervote]
    · rw [hsame.pay, hc.perblock]
    · rw [hsame.pay, hc.blocks]
    · rw [hsame.unpaid, hc.unpaid]
    · exact hproposed
    · exact houtbox
  · obtain ⟨s, hblock, hsys⟩ := step_system h
    have hs := hc.onblock hwaits hblock
    rw [hsys]
    exact ⟨hs.fill, hs.pervote, hs.perblock, hs.blocks, hs.unpaid,
      hs.proposed, rfl⟩
  · constructor
    · rw [hpay]
      exact hc.fill
    · rw [hpay]
      exact hc.pervote
    · rw [hpay]
      exact hc.perblock
    · rw [hpay]
      exact hc.blocks
    · rw [hunpaid, hc.unpaid]
    · exact hproposed
    · exact houtbox
  · obtain ⟨ctx, owner, rfl⟩ := isClaim_iff.mp hclaim
    exact (claim_dormant hc hranged h).2

/-- A chain that waits is dormant. -/
theorem dormant_run (h : Run (Step env) (genesis env) es c)
    (hwaits : c.Waits) : c.sys.Dormant := by
  have hdormant : c.sys.pay.Ranged ∧ (c.Waits → c.sys.Dormant) := by
    refine h.history (H := fun _ c =>
      c.sys.pay.Ranged ∧ (c.Waits → c.sys.Dormant)) ?_ ?_
    · exact ⟨ranged_run (.nil _), fun _ =>
        ⟨rfl, rfl, rfl, rfl, rfl, rfl, rfl⟩⟩
    · intro _ u _ v hu hstep
      refine ⟨ranged_step hu.1 hstep, fun hv => ?_⟩
      have hwaits' : u.Waits := by
        by_contra hset
        exact step_thresh hstep hset hv
      exact step_dormant (hu.2 hwaits') hu.1 hwaits' hstep
  exact hdormant.2 hwaits

/-- What the chain notes of its activation stays. -/
theorem activation_run {u v : Chain} (h : Run (Step env) u es v)
    (hset : ¬ u.Waits) :
    v.sys.election.activation = u.sys.election.activation := by
  have hkept : ¬ v.Waits ∧
      v.sys.election.activation = u.sys.election.activation := by
    refine h.invariant (I := fun w => ¬ w.Waits ∧
      w.sys.election.activation = u.sys.election.activation)
      (fun _ => True) ?_ (fun _ _ => trivial) ⟨hset, rfl⟩
    intro w e w' _ hw hstep
    exact ⟨step_thresh hstep hw.1, ((step_turns hstep).1 hw.1).trans hw.2⟩
  exact hkept.2

/-- One event turns a chain on. -/
theorem waits_unique {ds ds' rest rest' : List Event} {e e' : Event}
    {u u' v v' : Chain} (h : Run (Step env) (genesis env) ds u)
    (hstep : Step env u e v) (hu : u.Waits) (hv : ¬ v.Waits)
    (h' : Run (Step env) (genesis env) ds' u') (hstep' : Step env u' e' v')
    (hu' : u'.Waits) (hv' : ¬ v'.Waits)
    (hsplit : ds ++ e :: rest = ds' ++ e' :: rest') : ds = ds' := by
  have hkept : ∀ s e t, ¬ Waits s → Step env s e t → ¬ Waits t :=
    fun _ _ _ hset hstep => step_thresh hstep hset
  have hunique : ∀ s e t t', Step env s e t → Step env s e t' → t = t' :=
    fun _ _ _ _ h h' => Except.ok.inj (h.symm.trans h')
  exact Run.turning_unique hkept hunique h hstep (not_not.mpr hu) hv h' hstep'
    (not_not.mpr hu') hv' hsplit

end Chain

/-- **Nothing is paid before the activation, which happens once.**  As long as
the stake that activates the chain has not voted, no bucket is filled, no block
waits for its pay, no schedule is proposed, and a claim that succeeds moves no
token.  A chain that is activated has been activated by one event of its run,
and by no other: until that event it was dormant, and the time and the stake
noted there, which is enough, are still the ones it has. -/
theorem dormant_until_activated {env : Env} {es : List Event} {c : Chain}
    (hrun : Run (Chain.Step env) (.genesis env) es c) :
    (c.Waits → c.sys.Dormant ∧ ∀ ctx owner c',
      Chain.Step env c (.system ctx (.claimrewards owner)) c' →
        c'.token = c.token) ∧
    (¬ c.Waits → ∃ ds e rest u v, es = ds ++ e :: rest ∧
      Run (Chain.Step env) (.genesis env) ds u ∧ Chain.Step env u e v ∧
      Run (Chain.Step env) v rest c ∧ u.Waits ∧ u.sys.Dormant ∧
      v.sys.election.ActivatedAt e.ctx.currentTimePoint ∧
      c.sys.election.activation = v.sys.election.activation ∧
      ∀ ds' e' rest' u' v', es = ds' ++ e' :: rest' →
        Run (Chain.Step env) (.genesis env) ds' u' →
        Chain.Step env u' e' v' → u'.Waits → ¬ v'.Waits → ds' = ds) := by
  constructor
  · intro hwaits
    have hdormant := Chain.dormant_run hrun hwaits
    refine ⟨hdormant, fun ctx owner c' hclaim => ?_⟩
    exact (Chain.claim_dormant hdormant (Chain.ranged_run hrun) hclaim).1
  · intro hset
    obtain ⟨ds, e, rest, u, v, rfl, hbefore, hu, hstep, hv, hafter⟩ :=
      hrun.turning (P := fun c => ¬ c.Waits) (fun h => h rfl) hset
    have hwaits : u.Waits := not_not.mp hu
    refine ⟨ds, e, rest, u, v, rfl, hbefore, hstep, hafter, hwaits,
      Chain.dormant_run hbefore hwaits,
      ((Chain.step_turns hstep).2 hwaits).resolve_left hv,
      Chain.activation_run hafter hv, ?_⟩
    intro ds' e' rest' u' v' hsplit hbefore' hstep' hwaits' hv'
    exact Chain.waits_unique hbefore' hstep' hwaits' hv' hbefore hstep hwaits
      hv hsplit.symm

/-- `alice` registers. -/
def waitingEvents : List Event :=
  openingEvents ++
    [.system (.signedBy systemAccount 1) (.init 0 inrSymbol),
      .system (.signedBy alice 2) (.regproducer alice {} "" 0)]

/-- `alice` claims before anybody has voted, and then votes. -/
def wakingEvents : List Event :=
  [.system (.signedBy alice 200000) (.claimrewards alice),
    .system (.signedBy alice 200001)
      (.delegatebw alice alice ⟨9000, inrSymbol⟩ ⟨3000, inrSymbol⟩ false),
    .system (.signedBy alice 200002) (.makeprod alice .none [alice])]

theorem dormant_until_activated_sample : ∃ c₀ c₁ c : Chain,
    Chain.Step payEnv c₀
      (.system (.signedBy alice 200000) (.claimrewards alice)) c₁ ∧
    c₁.token = c₀.token ∧
    ∃ e ∈ waitingEvents ++ wakingEvents, ∃ v : Chain,
      v.sys.election.ActivatedAt e.ctx.currentTimePoint ∧
      c.sys.election.activation = v.sys.election.activation := by
  have hsample : Finishes (waitingEvents.foldlM (Chain.exec payEnv)
      (.genesis payEnv)) (fun c₀ =>
        c₀.sys.election.threshActivatedStakeTime = 0 ∧
        Finishes (wakingEvents.foldlM (Chain.exec payEnv) c₀)
          (fun c => c.sys.election.threshActivatedStakeTime ≠ 0)) := by
    decide +kernel
  obtain ⟨c₀, hc₀, hwaits, c, hc, hset⟩ := hsample
  have hbefore := Run.of_foldlM hc₀
  have hafter := Run.of_foldlM hc
  obtain ⟨c₁, hclaim, _⟩ := hafter.uncons
  obtain ⟨ds, e, rest, _, v, hsplit, _, _, _, _, _, hturned, hkept, _⟩ :=
    (dormant_until_activated (hbefore.append hafter)).2 hset
  refine ⟨c₀, c₁, c, hclaim, ?_, e, ?_, v, hturned, hkept⟩
  · exact ((dormant_until_activated hbefore).1 hwaits).2 _ _ _ hclaim
  · rw [hsplit]
    exact List.mem_append_right ds List.mem_cons_self

end Inery
