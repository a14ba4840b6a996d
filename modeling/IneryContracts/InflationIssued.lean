import IneryContracts.BlockPay
import IneryContracts.TimeSpans
import Mathlib.Data.List.ReduceOption

/-!
# Inflation is issued once

A claim issues the inflation of the time since the last fill, from the first
block after the activation of the chain on, and divides it among three accounts
before anybody is paid.  The new tokens are accounted for to the last unit, and
the times they are issued for follow each other without gap or overlap, in
whatever order the producers claim.  What is not safe is the count of the tokens
that wait in the two buckets: an increase of a bucket is not checked.
-/

namespace Inery

open GuardedStep LedgerVector LabelledRun MachineInt TimeSpans

/-! ## The supply -/

theorem Token.getSupply_eq_ok {t : TokenState} {c : SymbolCode}
    {supply : Asset} :
    getSupply t c = .ok supply ↔
      ∃ st, t.statOf c = some st ∧ st.supply = supply := by
  simp only [getSupply, bind_eq_ok, tableGet_eq_ok, pure_eq_ok]
  exact Iff.rfl

/-- A transfer, which leaves the supply alone. -/
def TokenAction.IsTransfer : TokenAction → Prop
  | transfer _ _ _ _ => True
  | _ => False

namespace Chain

variable {ctx : Ctx} {s : SysState} {t t' : TokenState}

end Chain

namespace System

theorem shareActions_isTransfer {core : Symbol} {to' : Name} {amount : ℤ}
    {memo : String} : ∀ i ∈ shareActions core to' amount memo,
      i.action.IsTransfer := by
  unfold shareActions
  split
  · intro i hi
    rw [List.mem_singleton.mp hi]
    trivial
  · simp

theorem payActions_isTransfer {core : Symbol} {bucket owner : Name} {amount : ℚ}
    {memo : String} : ∀ i ∈ payActions core bucket owner amount memo,
      i.action.IsTransfer := by
  unfold payActions
  split
  · intro i hi
    rw [List.mem_singleton.mp hi]
    trivial
  · simp

theorem Payout.actions_isTransfer {p : Payout} {owner : Name} :
    ∀ i ∈ p.actions owner, i.action.IsTransfer := by
  intro i hi
  rcases List.mem_append.mp hi with hi | hi
  · exact payActions_isTransfer i hi
  · exact payActions_isTransfer i hi

end System

/-! ## The state of the pay -/

/-- The factors are as `setinflation` checks them, and the buckets are 64-bit
numbers. -/
structure PayState.Ranged (p : PayState) : Prop where
  factors : p.FactorsOk
  perblock : -2 ^ 63 ≤ p.perblockBucket ∧ p.perblockBucket < 2 ^ 63
  pervote : -2 ^ 63 ≤ p.pervoteBucket ∧ p.pervoteBucket < 2 ^ 63

namespace Chain

variable {env : Env} {c c' : Chain} {e : Event} {es : List Event}

theorem ranged_step (hc : c.sys.pay.Ranged) (h : Step env c e c') :
    c'.sys.pay.Ranged := by
  by_cases hclaim : e.IsClaim
  · obtain ⟨ctx, owner, rfl⟩ := isClaim_iff.mp hclaim
    obtain ⟨s, hs, hsys⟩ := step_system h
    obtain ⟨p, hpaid, _, hpervote, hperblock⟩ :=
      System.claimrewards_settled hc.factors hs
    obtain ⟨_, _, _, hrest⟩ := hpaid.filled.rest
    have hpay : c'.sys.pay = s.pay := by rw [hsys]
    rw [hpay]
    refine ⟨?_, hperblock, hpervote⟩
    rw [hpaid.pay, hrest]
    exact ⟨hc.factors.inflation, hc.factors.votepay⟩
  · obtain ⟨hfactors, hperblock, hpervote, _⟩ :=
      step_unclaimed h hclaim hc.factors
    exact ⟨hfactors, hperblock ▸ hc.perblock, hpervote ▸ hc.pervote⟩

theorem ranged_run (h : Run (Step env) (genesis env) es c) :
    c.sys.pay.Ranged :=
  h.invariant (fun _ => True) (fun _ _ _ _ hc hstep => ranged_step hc hstep)
    (fun _ _ => trivial) ⟨(blockBooks_genesis env).factors,
      (by decide : (-2 ^ 63 : ℤ) ≤ 0 ∧ (0 : ℤ) < 2 ^ 63),
      (by decide : (-2 ^ 63 : ℤ) ≤ 0 ∧ (0 : ℤ) < 2 ^ 63)⟩

/-! ## The time of the last fill -/

end Chain

/-- The last fill after a block: the first block after the activation starts
the presses. -/
theorem System.onblock_fill {ctx : Ctx} {s s' : SysState} {timestamp : UInt32}
    {producer : Name} (h : onblock ctx s timestamp producer = .ok s') :
    s'.pay.lastPervoteBucketFill =
      if s.election.threshActivatedStakeTime = 0 then
        s.pay.lastPervoteBucketFill
      else if s.pay.lastPervoteBucketFill = 0 then ctx.currentTimePoint
      else s.pay.lastPervoteBucketFill := by
  simp only [onblock, bind_eq_ok, Ctx.requireAuth_eq_ok, exists_const] at h
  obtain ⟨_, h⟩ := h
  split at h
  · next hzero =>
      cases h
      rw [if_pos hzero]
  · next hzero =>
      simp only [bind_eq_ok] at h
      obtain ⟨s₁, hcount, h⟩ := h
      have hsame : s'.pay = s₁.pay := by
        split at h
        · cases h
          exact (updateElectedProducers_pay s₁ timestamp).pay
        · cases h
          rfl
      have hfill : s₁.pay.lastPervoteBucketFill =
          if s.pay.lastPervoteBucketFill = 0 then ctx.currentTimePoint
          else s.pay.lastPervoteBucketFill := by
        unfold countBlock at hcount
        split at hcount
        · simp only [bind_eq_ok, modify_eq_ok, pure_eq_ok] at hcount
          obtain ⟨_, _, rfl⟩ := hcount
          rfl
        · cases hcount
          rfl
      rw [if_neg hzero, hsame, hfill]

namespace Chain

variable {env : Env} {c c' : Chain} {e : Event} {es : List Event}

/-- The span that a claim issues inflation for. -/
def inflationSpan (c : Chain) : Event → Option (ℤ × ℤ)
  | .system ctx (.claimrewards _) =>
      if c.sys.pay.Due ctx.currentTimePoint then
        some (c.sys.pay.lastPervoteBucketFill, ctx.currentTimePoint)
      else none
  | _ => none

/-- The time of a block after the activation of the chain. -/
def activeBlock (c : Chain) : Event → Option ℤ
  | .system ctx (.onblock _ _) =>
      if c.sys.election.threshActivatedStakeTime = 0 then none
      else some ctx.currentTimePoint
  | _ => none

/-- The spans that the claims of a run issue inflation for, in the order of the
claims. -/
def inflationSpans (env : Env) (es : List Event) : List (ℤ × ℤ) :=
  (observe (exec env) inflationSpan (genesis env) es).reduceOption

/-- The times of the blocks after the activation of the chain. -/
def activeBlocks (env : Env) (es : List Event) : List ℤ :=
  (observe (exec env) activeBlock (genesis env) es).reduceOption

theorem inflationSpans_snoc (h : Run (Step env) (genesis env) es c)
    (e : Event) : inflationSpans env (es ++ [e]) =
      inflationSpans env es ++ (c.inflationSpan e).toList := by
  rw [inflationSpans, h.observe_snoc, ← List.concat_eq_append,
    List.reduceOption_concat]
  rfl

theorem activeBlocks_snoc (h : Run (Step env) (genesis env) es c)
    (e : Event) : activeBlocks env (es ++ [e]) =
      activeBlocks env es ++ (c.activeBlock e).toList := by
  rw [activeBlocks, h.observe_snoc, ← List.concat_eq_append,
    List.reduceOption_concat]
  rfl

/-- A claim fills the buckets when that is due. -/
theorem claim_lastFill (hc : c.sys.pay.FactorsOk) {ctx : Ctx} {owner : Name}
    (h : Step env c (.system ctx (.claimrewards owner)) c') :
    c'.sys.pay.lastPervoteBucketFill =
      if c.sys.pay.Due ctx.currentTimePoint then ctx.currentTimePoint
      else c.sys.pay.lastPervoteBucketFill := by
  obtain ⟨s, hs, hsys⟩ := step_system h
  obtain ⟨p, hpaid⟩ := System.claimrewards_paid hc hs
  obtain ⟨_, supply, _, _, _, hfilled⟩ := System.fillBuckets_ok hpaid.fill
  obtain ⟨_, _, hrest⟩ := c.sys.pay.filledAt_rest supply.amount
    ctx.currentTimePoint
  rw [hsys]
  show s.pay.lastPervoteBucketFill = _
  rw [hpaid.pay, hfilled, hrest]

/-- What a step does to the time of the last fill. -/
theorem step_lastFill (hc : c.sys.pay.FactorsOk) (h : Step env c e c') :
    (∃ span, c.inflationSpan e = some span ∧ c.activeBlock e = none ∧
      span.1 = c.sys.pay.lastPervoteBucketFill ∧ 0 < span.1 ∧
      span.1 < span.2 ∧ c'.sys.pay.lastPervoteBucketFill = span.2) ∨
    c.inflationSpan e = none ∧ (
      (∃ t, 0 < t ∧ c.activeBlock e = some t ∧
        c'.sys.pay.lastPervoteBucketFill =
          if c.sys.pay.lastPervoteBucketFill = 0 then t
          else c.sys.pay.lastPervoteBucketFill) ∨
      c.activeBlock e = none ∧ c'.sys.pay.lastPervoteBucketFill =
        c.sys.pay.lastPervoteBucketFill) := by
  by_cases hclaim : e.IsClaim
  · obtain ⟨ctx, owner, rfl⟩ := isClaim_iff.mp hclaim
    have hlast := claim_lastFill hc h
    by_cases hdue : c.sys.pay.Due ctx.currentTimePoint
    · rw [if_pos hdue] at hlast
      have helapsed := hdue.1
      exact .inl ⟨_, if_pos hdue, rfl, rfl, hdue.2, by dsimp only; omega, hlast⟩
    · rw [if_neg hdue] at hlast
      exact .inr ⟨if_neg hdue, .inr ⟨rfl, hlast⟩⟩
  · have hspan : c.inflationSpan e = none := by
      unfold inflationSpan
      split
      · exact absurd trivial hclaim
      · rfl
    refine .inr ⟨hspan, ?_⟩
    by_cases hblock : ∃ ctx timestamp producer,
        e = .system ctx (.onblock timestamp producer)
    · obtain ⟨ctx, timestamp, producer, rfl⟩ := hblock
      obtain ⟨s, hs, hsys⟩ := step_system h
      have hfill := System.onblock_fill hs
      have hlast : c'.sys.pay.lastPervoteBucketFill =
          s.pay.lastPervoteBucketFill := by rw [hsys]
      rw [hlast, hfill]
      by_cases hzero : c.sys.election.threshActivatedStakeTime = 0
      · exact .inr ⟨if_pos hzero, if_pos hzero⟩
      · refine .inl ⟨ctx.currentTimePoint, ?_, if_neg hzero, if_neg hzero⟩
        unfold Ctx.currentTimePoint
        omega
    · have hactive : c.activeBlock e = none := by
        unfold activeBlock
        split
        · exact absurd ⟨_, _, _, rfl⟩ hblock
        · rfl
      refine .inr ⟨hactive, ?_⟩
      rcases step_pay h with ⟨_, hsame⟩ | ⟨_, _, _, heq, _⟩ |
        ⟨_, _, _, _, _, _, hpay⟩ | hpaid
      · rw [hsame.pay]
      · exact absurd ⟨_, _, _, heq⟩ hblock
      · rw [hpay]
      · exact absurd hpaid hclaim

/-- **The spans are consecutive**, and the first starts at the first block after
the activation of the chain. -/
theorem inflationSpans_consecutive (h : Run (Step env) (genesis env) es c) :
    match (activeBlocks env es).head? with
    | none => c.sys.pay.lastPervoteBucketFill = 0 ∧ inflationSpans env es = []
    | some start => 0 < c.sys.pay.lastPervoteBucketFill ∧
        Consecutive start (inflationSpans env es)
          c.sys.pay.lastPervoteBucketFill := by
  induction h with
  | nil => exact ⟨rfl, rfl⟩
  | @snoc c c' es e init last ih =>
      have hspans := inflationSpans_snoc init e
      have hblocks := activeBlocks_snoc init e
      rcases step_lastFill (ranged_run init).factors last with
        ⟨span, hspan, hactive, hstart, hpos, hlt, hlast⟩ |
        ⟨hspan, ⟨t, ht, hactive, hlast⟩ | ⟨hactive, hlast⟩⟩
      · rw [hspan] at hspans
        rw [hactive, Option.toList_none, List.append_nil] at hblocks
        rw [hspans, hblocks, hlast]
        cases hhead : (activeBlocks env es).head? with
        | none =>
            rw [hhead] at ih
            omega
        | some start =>
            rw [hhead] at ih
            refine ⟨hpos.trans hlt, ?_⟩
            have hsnoc := ih.2.snoc (hstart ▸ hlt)
            rwa [← hstart] at hsnoc
      · rw [hspan, Option.toList_none, List.append_nil] at hspans
        rw [hactive, Option.toList_some] at hblocks
        rw [hspans, hblocks, hlast]
        cases hhead : (activeBlocks env es).head? with
        | none =>
            rw [hhead] at ih
            rw [List.head?_eq_none_iff] at hhead
            rw [hhead, ih.2, if_pos ih.1]
            exact ⟨ht, rfl⟩
        | some start =>
            rw [hhead] at ih
            rw [List.head?_append, hhead, if_neg ih.1.ne']
            exact ih
      · rw [hspan, Option.toList_none, List.append_nil] at hspans
        rw [hactive, Option.toList_none, List.append_nil] at hblocks
        rw [hspans, hblocks, hlast]
        exact ih

end Chain

/-! ## A claim -/

namespace Chain

variable {env : Env} {c c' : Chain} {es : List Event}

end Chain

/-- Alice activates the chain, there are three blocks and she claims. -/
def claimingEvents : List Event :=
  producingBlocks ++
    [.system (.signedBy alice 200000) (.claimrewards alice)]

/-- What three years of an inflation of 10000 % add to 2.5 * 10^17 units. -/
def threeYears : ℤ := 3461340387630944759

/-- The account of the block pay hands its tokens back and they are retired. -/
def retiringEvents (slot : UInt32) : List Event :=
  [.token (.signedBy bpayAccount slot)
      (.transfer bpayAccount systemAccount ⟨threeYears, inrSymbol⟩ ""),
    .token (.signedBy systemAccount slot)
      (.retire ⟨threeYears, inrSymbol⟩ "")]

/-- Twice alice claims after three years, with no block to be paid for, and the
tokens of the block pay are retired. -/
def refillingEvents : List Event :=
  inflatedEvents 250000000000000000 1000000 ++
  [.system (.signedBy systemAccount 4) (.onblock 4 bob),
    .system (.signedBy alice 188697604) (.claimrewards alice)] ++
  retiringEvents 188697604 ++
  [.system (.signedBy alice 377395204) (.claimrewards alice)] ++
  retiringEvents 377395204

end Inery
