import IneryContracts.BlockPayRange
import IneryContracts.InflationIssued
import IneryContracts.SharedPot

/-!
# The block pay is fair in any order of claims

The block pay is a pot that is shared out in proportion to the unpaid blocks:
within one block nothing is added to the bucket after the first claim, and every
claim takes the part of what is left that its blocks are of the blocks that are
left.  So whatever the order of the claims, no producer gets less than its part
of the full bucket, and nothing is left over.
-/

namespace Inery

open GuardedStep LedgerVector LabelledRun MachineInt NearestDouble

/-! ## What is paid for blocks -/

/-- What an inline action pays its receiver for blocks. -/
def InlineAction.blockPaid (i : InlineAction) : Name → ℤ :=
  match i.action with
  | .transfer from' to' quantity memo =>
      if from' = bpayAccount ∧ memo = "producer block pay" then
        Pi.single to' quantity.amount
      else 0
  | _ => 0

/-- What a list of inline actions pays for blocks. -/
def blockPaid (l : List InlineAction) : Name → ℤ :=
  (l.map InlineAction.blockPaid).sum

/-- What two lists of transfers pay adds up. -/
theorem blockPaid_append (l l' : List InlineAction) :
    blockPaid (l ++ l') = blockPaid l + blockPaid l' := by
  simp [blockPaid]

namespace System

theorem blockPaid_payActions {core : Symbol} {owner : Name} {amount : ℤ} :
    blockPaid (payActions core bpayAccount owner amount "producer block pay") =
      Pi.single owner (max 0 amount) := by
  unfold payActions
  split
  · next hpos =>
      have hpos : 0 < amount := by exact_mod_cast hpos
      simp [blockPaid, InlineAction.blockPaid, max_eq_right hpos.le]
  · next hpos =>
      have hpos : ¬ 0 < amount := by exact_mod_cast hpos
      simp [blockPaid, max_eq_left (not_lt.mp hpos)]

theorem blockPaid_votes {core : Symbol} {owner : Name} {amount : ℚ}
    {memo : String} :
    blockPaid (payActions core vpayAccount owner amount memo) = 0 := by
  have hne : ¬ vpayAccount = bpayAccount := by decide
  unfold payActions
  split <;> simp [blockPaid, InlineAction.blockPaid, hne]

theorem blockPaid_inflation {core : Symbol} {i : Inflation} :
    blockPaid (inflationActions core i) = 0 := by
  have hne : ¬ systemAccount = bpayAccount := by decide
  have hshare : ∀ to' amount memo,
      blockPaid (shareActions core to' amount memo) = 0 := by
    intro to' amount memo
    unfold shareActions
    split <;> simp [blockPaid, InlineAction.blockPaid, hne]
  unfold inflationActions
  split
  · rw [← List.singleton_append, blockPaid_append, blockPaid_append,
      blockPaid_append, hshare, hshare, hshare]
    simp [blockPaid, InlineAction.blockPaid]
  · rfl

end System

namespace Chain

/-- What a claim pays for blocks; other events pay nothing for them. -/
def blockPay (c : Chain) : Event → Name → ℤ
  | .system ctx (.claimrewards owner) =>
      match System.claimrewards ctx c.token c.sys owner with
      | .ok s => blockPaid s.outbox
      | .error _ => 0
  | _ => 0

/-- What the events of a run pay for blocks. -/
def blockPayments (env : Env) (c : Chain) (es : List Event) : Name → ℤ :=
  (observe (exec env) blockPay c es).sum

variable {env : Env} {c c' : Chain} {e : Event} {es ds : List Event}

theorem blockPay_of_not_isClaim (h : ¬ e.IsClaim) : c.blockPay e = 0 := by
  unfold blockPay
  split
  · exact absurd trivial h
  · rfl

/-- What a claim pays for blocks is its block pay. -/
theorem blockPay_claim (hempty : c.sys.outbox = []) {ctx : Ctx} {owner : Name}
    {s : SysState} {p : System.Payout}
    (hs : System.claimrewards ctx c.token c.sys owner = .ok s)
    (hpaid : System.PaidClaim ctx c.token owner p c.sys s)
    (hout : s.outbox = p.filled.outbox ++ p.actions owner) :
    c.blockPay (.system ctx (.claimrewards owner)) =
      Pi.single owner (max 0 p.perblock) := by
  obtain ⟨_, _, _, _, _, hfilled⟩ := System.fillBuckets_ok hpaid.fill
  have hbox := congrArg SysState.outbox hfilled
  dsimp only at hbox
  rw [hempty, List.nil_append] at hbox
  have hpay : c.blockPay (.system ctx (.claimrewards owner)) =
      blockPaid s.outbox := by
    simp only [blockPay, hs]
  rw [hpay, hout, hbox, System.Payout.actions, blockPaid_append,
    blockPaid_append, System.blockPaid_inflation, System.blockPaid_payActions,
    System.blockPaid_votes, zero_add, add_zero]

/-- What every claim relies on: nothing is left to be sent and the pay is in
order. -/
structure PayReady (c : Chain) : Prop where
  outbox : c.sys.outbox = []
  ranged : c.sys.pay.Ranged

/-- Every reachable state is ready for a claim. -/
theorem payReady_run (h : Run (Step env) (genesis env) es c) : c.PayReady :=
  ⟨((books_genesis env).run h).outbox, ranged_run h⟩

/-- Every event keeps it ready. -/
theorem PayReady.step (hc : c.PayReady) (h : Step env c e c') :
    c'.PayReady := by
  refine ⟨?_, ranged_step hc.ranged h⟩
  obtain ⟨_, _, ⟨_, _, _, hsys, _⟩ | ⟨_, _, _, _, _, _, hsys⟩ |
    ⟨_, _, _, _, ⟨_, _, _, hsys⟩ | ⟨_, hsys⟩⟩⟩ := step_cases h
  · rw [hsys, hc.outbox]
  · rw [hsys]
  · rw [hsys]
  · rw [hsys]
    exact hc.outbox

/-- No claim takes block pay away. -/
theorem PayReady.blockPay_nonneg (hc : c.PayReady) (h : Step env c e c')
    (k : Name) : 0 ≤ c.blockPay e k := by
  by_cases hclaim : e.IsClaim
  · obtain ⟨ctx, owner, rfl⟩ := isClaim_iff.mp hclaim
    obtain ⟨s, hs, _⟩ := step_system h
    obtain ⟨p, hpaid, hout, _⟩ :=
      System.claimrewards_settled hc.ranged.factors hs
    rw [blockPay_claim hc.outbox hs hpaid hout, Pi.single_apply]
    split
    · exact le_max_left _ _
    · exact le_refl 0
  · rw [blockPay_of_not_isClaim hclaim]
    exact le_refl 0

theorem blockPayments_cons (h : Step env c e c') (es : List Event) :
    blockPayments env c (e :: es) = c.blockPay e + blockPayments env c' es := by
  have hexec : exec env c e = .ok c' := h
  simp [blockPayments, observe, hexec]

/-- The last event adds its block pay. -/
theorem blockPayments_snoc (h : Run (Step env) c es c') (e : Event) :
    blockPayments env c (es ++ [e]) =
      blockPayments env c es + c'.blockPay e := by
  rw [blockPayments, h.observe_snoc, List.sum_append, List.sum_singleton]
  rfl

theorem PayReady.blockPayments_nonneg (hc : c.PayReady)
    (h : Run (Step env) c es c') (k : Name) : 0 ≤ blockPayments env c es k := by
  suffices hkept : c'.PayReady ∧ 0 ≤ blockPayments env c es k from hkept.2
  induction h with
  | nil => exact ⟨hc, le_refl 0⟩
  | @snoc u v ds e init last ih =>
      obtain ⟨hu, hsum⟩ := ih
      refine ⟨hu.step last, ?_⟩
      rw [blockPayments_snoc init, Pi.add_apply]
      exact add_nonneg hsum (hu.blockPay_nonneg last k)

/-! ## Claims in one block -/

/-- Claims are being made on a bucket of `B` for `U` blocks, those of `unpaid₀`,
and so far `paid` has been paid: what is left is a pot shared out in proportion,
and every producer still has its blocks or has got its part of `B`. -/
structure Sharing (es : List Event) (B U : ℤ) (unpaid₀ : Name → ℤ) (c : Chain)
    (bucket : ℤ) (paid : Name → ℤ) : Prop where
  ready : c.PayReady
  counts : c.BlockCounts es
  pot : ∃ pot : SharedPot B U, pot.amount = bucket ∧
    pot.shares = c.sys.pay.totalUnpaidBlocks
  paid_nonneg : ∀ k, 0 ≤ paid k
  total_paid : total paid + bucket = B
  fair : ∀ k, c.sys.unpaid k = unpaid₀ k ∨
    c.sys.unpaid k = 0 ∧ B * unpaid₀ k / U ≤ paid k

section Sharing

variable {B U bucket : ℤ} {unpaid₀ paid : Name → ℤ}

/-- A claim clears the blocks of its owner. -/
theorem unpaid_claimed {ctx : Ctx} {t : TokenState} {owner : Name}
    {p : System.Payout} {s s' : SysState}
    (hpaid : System.PaidClaim ctx t owner p s s') :
    s.unpaid owner = p.prod.unpaidBlocks ∧ s'.unpaid owner = 0 ∧
      ∀ k, k ≠ owner → s'.unpaid k = s.unpaid k := by
  have hview : s.unpaid owner = p.prod.unpaidBlocks := view_of_find hpaid.row
  refine ⟨hview, ?_, fun k hk => ?_⟩
  · rw [hpaid.unpaid, Pi.sub_apply, Pi.single_eq_same, hview, sub_self]
  · rw [hpaid.unpaid, Pi.sub_apply, Pi.single_eq_of_ne hk, sub_zero]

/-- The bucket holds no more than it did when it was full. -/
theorem Sharing.bucket_bounds (hc : c.Sharing es B U unpaid₀ bucket paid) :
    0 ≤ bucket ∧ bucket ≤ B := by
  obtain ⟨pot, hamount, _⟩ := hc.pot
  have hpaid := total_nonneg hc.paid_nonneg
  have hsum := hc.total_paid
  exact ⟨hamount ▸ pot.amount_nonneg, by omega⟩

/-- What is left of the blocks of a producer is all of them or nothing, so a
product fits that fits with the full bucket. -/
theorem Sharing.product_lt (hc : c.Sharing es B U unpaid₀ bucket paid)
    (hnonneg : ∀ k, 0 ≤ unpaid₀ k) (hfits : ∀ k, B * unpaid₀ k < 2 ^ 63)
    (k : Name) : bucket * c.sys.unpaid k < 2 ^ 63 := by
  rcases hc.fair k with hsame | ⟨hzero, _⟩
  · rw [hsame]
    exact (mul_le_mul_of_nonneg_right hc.bucket_bounds.2
      (hnonneg k)).trans_lt (hfits k)
  · rw [hzero, mul_zero]
    decide

/-- What a claim pays is the part of the pot that its blocks are. -/
theorem Sharing.payout (hc : c.Sharing es B U unpaid₀ bucket paid)
    (hlength : (blockSlots es).length < 2 ^ 32) (hB : B < 2 ^ 53)
    (hnonneg : ∀ k, 0 ≤ unpaid₀ k) (hfits : ∀ k, B * unpaid₀ k < 2 ^ 63)
    {ctx : Ctx} {owner : Name} {p : System.Payout} {s : SysState}
    (hfilled : p.filled.pay.perblockBucket = bucket)
    (hpaid : System.PaidClaim ctx c.token owner p c.sys s) :
    ∃ pot : SharedPot B U, pot.amount = bucket ∧
      pot.shares = c.sys.pay.totalUnpaidBlocks ∧
      p.prod.unpaidBlocks ≤ pot.shares ∧
      p.perblock = pot.part p.prod.unpaidBlocks ∧
      s.pay.perblockBucket = bucket - pot.part p.prod.unpaidBlocks := by
  obtain ⟨pot, hamount, hshares⟩ := hc.pot
  obtain ⟨htotal, hunpaid, _⟩ := hc.counts.claim hlength hpaid
  obtain ⟨hlo, hhi⟩ := hc.bucket_bounds
  have hproduct := hc.product_lt hnonneg hfits owner
  rw [(unpaid_claimed hpaid).1] at hproduct
  have hle : (p.prod.unpaidBlocks : ℤ) ≤ pot.shares := by omega
  have hpart_nonneg := pot.part_nonneg (Int.natCast_nonneg p.prod.unpaidBlocks)
  have hpart_le := pot.part_le hle
  have hpart : p.perblock = pot.part p.prod.unpaidBlocks := by
    have hquotient : p.filled.pay.blockPay p.prod.unpaidBlocks = _ :=
      System.blockPay_eq (by rwa [hfilled]) (by rwa [hfilled])
    rw [hfilled, htotal, ← hamount, ← hshares] at hquotient
    exact hquotient.trans (toDouble_of_lt (x := pot.part _) (by omega)
      (by omega))
  refine ⟨pot, hamount, hshares, hle, hpart, ?_⟩
  have hs := congrArg PayState.perblockBucket hpaid.pay
  rw [hfilled, hpart] at hs
  exact hs.trans (toDouble_sub hpart_nonneg (hamount ▸ hpart_le) (by omega))

/-- Who claims has its part of the full bucket then, and the others are where
they were. -/
theorem Sharing.fair_claimed (hc : c.Sharing es B U unpaid₀ bucket paid)
    (hU : 0 < U) {ctx : Ctx} {owner : Name} {p : System.Payout} {s : SysState}
    (hpaid : System.PaidClaim ctx c.token owner p c.sys s)
    (pot : SharedPot B U) (hle : p.prod.unpaidBlocks ≤ pot.shares) (k : Name) :
    s.unpaid k = unpaid₀ k ∨ s.unpaid k = 0 ∧ B * unpaid₀ k / U ≤
      (paid + Pi.single owner (pot.part p.prod.unpaidBlocks) : Name → ℤ) k := by
  obtain ⟨hview, hcleared, hrest⟩ := unpaid_claimed hpaid
  have hu : (0 : ℤ) ≤ p.prod.unpaidBlocks := Int.natCast_nonneg _
  by_cases hk : k = owner
  · subst hk
    refine .inr ⟨hcleared, ?_⟩
    have hpaid_nonneg := hc.paid_nonneg k
    have hpart_nonneg := pot.part_nonneg hu
    rw [Pi.add_apply, Pi.single_eq_same]
    rcases hc.fair k with hsame | ⟨_, hfair⟩
    · have hle_part := pot.le_part hU hu hle
      rw [← hview, hsame] at hle_part
      rw [← hview, hsame]
      omega
    · omega
  · rw [hrest k hk, Pi.add_apply, Pi.single_eq_of_ne hk, add_zero]
    exact hc.fair k

/-- **A claim takes its part.** -/
theorem Sharing.claim (hc : c.Sharing es B U unpaid₀ bucket paid)
    (hU : 0 < U) (hlength : (blockSlots es).length < 2 ^ 32)
    (hB : B < 2 ^ 53) (hnonneg : ∀ k, 0 ≤ unpaid₀ k)
    (hfits : ∀ k, B * unpaid₀ k < 2 ^ 63) {ctx : Ctx} {owner : Name}
    (hbucket : ∀ filled, System.fillBuckets ctx c.token c.sys = .ok filled →
      filled.pay.perblockBucket = bucket)
    (h : Step env c (.system ctx (.claimrewards owner)) c') :
    c'.Sharing es B U unpaid₀ c'.sys.pay.perblockBucket
      (paid + c.blockPay (.system ctx (.claimrewards owner))) ∧
    c'.sys.unpaid owner = 0 ∧
    ∀ k, c.sys.unpaid k = 0 → c'.sys.unpaid k = 0 := by
  obtain ⟨s, hs, hsys⟩ := step_system h
  obtain ⟨p, hpaid, hout, _⟩ :=
    System.claimrewards_settled hc.ready.ranged.factors hs
  obtain ⟨_, _, hleft, hcounted⟩ := hc.counts.claim hlength hpaid
  obtain ⟨pot, hamount, hshares, hle, hpart, hbucket'⟩ :=
    hc.payout hlength hB hnonneg hfits (hbucket _ hpaid.fill) hpaid
  obtain ⟨_, hcleared, hrest⟩ := unpaid_claimed hpaid
  have hu : (0 : ℤ) ≤ p.prod.unpaidBlocks := Int.natCast_nonneg _
  have hpart_nonneg := pot.part_nonneg hu
  have hblocks := hc.counts.blocks
  have hsum := hc.total_paid
  have hpay : c.blockPay (.system ctx (.claimrewards owner)) =
      Pi.single owner (pot.part p.prod.unpaidBlocks) := by
    rw [blockPay_claim hc.ready.outbox hs hpaid hout, hpart,
      max_eq_right hpart_nonneg]
  have hpay₁ : c'.sys.pay = s.pay := by rw [hsys]
  have hunpaid₁ : c'.sys.unpaid = s.unpaid := by rw [hsys]; rfl
  rw [hpay, hpay₁, hunpaid₁]
  refine ⟨
    { ready := hc.ready.step h
      counts := ⟨by rw [hpay₁, hunpaid₁]; exact hcounted, by
        rw [hpay₁]
        omega⟩
      pot := ⟨pot.take hU.le _ hu hle, ?_, ?_⟩
      paid_nonneg := fun k => ?_
      total_paid := ?_
      fair := fun k => ?_ }, hcleared, fun k hk => ?_⟩
  · rw [hbucket', ← hamount]
    rfl
  · show pot.shares - _ = _
    rw [hpay₁, hshares]
    omega
  · rw [add_single_apply]
    have hk := hc.paid_nonneg k
    split <;> omega
  · rw [total_add, total_single, hbucket']
    omega
  · rw [hunpaid₁]
    exact hc.fair_claimed hU hpaid pot hle k
  · by_cases hk' : k = owner
    · exact hk' ▸ hcleared
    · rw [hrest k hk', hk]

/-- Other events than claims and blocks change nothing of it. -/
theorem Sharing.quiet
    (hc : c.Sharing es B U unpaid₀ c.sys.pay.perblockBucket paid)
    (h : Step env c e c') (hclaim : ¬ e.IsClaim) (hblock : e.blockSlot = none) :
    c'.Sharing es B U unpaid₀ c'.sys.pay.perblockBucket
      (paid + c.blockPay e) ∧ c'.sys.unpaid = c.sys.unpaid ∧
    c'.sys.pay.lastPervoteBucketFill = c.sys.pay.lastPervoteBucketFill := by
  have hsame : c'.sys.pay.totalUnpaidBlocks = c.sys.pay.totalUnpaidBlocks ∧
      c'.sys.unpaid = c.sys.unpaid ∧
      c'.sys.pay.perblockBucket = c.sys.pay.perblockBucket ∧
      c'.sys.pay.lastPervoteBucketFill =
        c.sys.pay.lastPervoteBucketFill := by
    rcases step_pay h with ⟨_, hsame⟩ | ⟨_, _, _, rfl, _⟩ |
      ⟨_, hunpaid, _, _, _, _, hpay⟩ | hpaid
    · rw [hsame.pay]
      exact ⟨rfl, hsame.unpaid, rfl, rfl⟩
    · cases hblock
    · rw [hpay]
      exact ⟨rfl, hunpaid, rfl, rfl⟩
    · exact absurd hpaid hclaim
  obtain ⟨htotal, hunpaid, hbucket, hlast⟩ := hsame
  refine ⟨?_, hunpaid, hlast⟩
  rw [blockPay_of_not_isClaim hclaim, add_zero, hbucket]
  refine ⟨hc.ready.step h, ⟨?_, ?_⟩, ?_, hc.paid_nonneg, hc.total_paid, ?_⟩
  · rw [htotal, hunpaid]
    exact hc.counts.counted
  · rw [htotal]
    exact hc.counts.blocks
  · rw [htotal]
    exact hc.pot
  · rw [hunpaid]
    exact hc.fair

/-- In the block of a claim no further fill is due. -/
theorem not_due_of_claim (hc : c.PayReady) {ctx ctx' : Ctx} {owner : Name}
    (hslot : ctx'.slot = ctx.slot)
    (h : Step env c (.system ctx (.claimrewards owner)) c') :
    ¬ c'.sys.pay.Due ctx'.currentTimePoint := by
  have hlast := claim_lastFill hc.ranged.factors h
  have htime : ctx'.currentTimePoint = ctx.currentTimePoint := by
    rw [Ctx.currentTimePoint, Ctx.currentTimePoint, hslot]
  rw [htime]
  rintro ⟨helapsed, hpos⟩
  split at hlast
  · omega
  · next hdue =>
      rw [hlast] at helapsed hpos
      exact hdue ⟨helapsed, hpos⟩

/-- Where no fill is due a claim finds the bucket as it is. -/
theorem fillBuckets_of_not_due {ctx : Ctx} {filled : SysState}
    (hdue : ¬ c.sys.pay.Due ctx.currentTimePoint)
    (hfill : System.fillBuckets ctx c.token c.sys = .ok filled) :
    filled.pay = c.sys.pay := by
  obtain ⟨_, _, _, _, _, rfl⟩ := System.fillBuckets_ok hfill
  exact if_neg hdue

/-- **The claims of one block share the bucket out**, whatever else happens in
the block. -/
theorem Sharing.run
    (hc : c.Sharing es B U unpaid₀ c.sys.pay.perblockBucket paid)
    (hU : 0 < U) (hlength : (blockSlots es).length < 2 ^ 32)
    (hdouble : B < 2 ^ 53) (hnonneg : ∀ k, 0 ≤ unpaid₀ k)
    (hfits : ∀ k, B * unpaid₀ k < 2 ^ 63) {slot : UInt32}
    (hdue : ∀ ctx : Ctx, ctx.slot = slot →
      ¬ c.sys.pay.Due ctx.currentTimePoint)
    (h : Run (Step env) c ds c') (hslot : ∀ e ∈ ds, e.ctx.slot = slot)
    (hblocks : ∀ e ∈ ds, e.blockSlot = none) :
    c'.Sharing es B U unpaid₀ c'.sys.pay.perblockBucket
      (paid + blockPayments env c ds) ∧
    (∀ ctx : Ctx, ctx.slot = slot → ¬ c'.sys.pay.Due ctx.currentTimePoint) ∧
    (∀ k, c.sys.unpaid k = 0 → c'.sys.unpaid k = 0) ∧
    ∀ ctx owner, .system ctx (.claimrewards owner) ∈ ds →
      c'.sys.unpaid owner = 0 := by
  induction h with
  | nil =>
      refine ⟨?_, hdue, fun k hk => hk, by simp⟩
      show c.Sharing es B U unpaid₀ _ (paid + (observe _ _ _ []).sum)
      rw [observe, List.sum_nil, add_zero]
      exact hc
  | @snoc u v ds e init last ih =>
      obtain ⟨hu, hdue', hcleared, hclaimed⟩ :=
        ih (fun d hd => hslot d (List.mem_append_left _ hd))
          (fun d hd => hblocks d (List.mem_append_left _ hd))
      have hslot_e := hslot e (by simp)
      have hblock_e := hblocks e (by simp)
      rw [blockPayments_snoc init, ← add_assoc]
      by_cases hclaim : e.IsClaim
      · obtain ⟨ctx, owner, rfl⟩ := isClaim_iff.mp hclaim
        obtain ⟨hshared, hzero, hkept⟩ := hu.claim hU hlength hdouble hnonneg
          hfits (fun filled hfill => by
            rw [fillBuckets_of_not_due (hdue' ctx hslot_e) hfill]) last
        refine ⟨hshared, fun ctx' hctx' =>
          not_due_of_claim hu.ready (hctx'.trans hslot_e.symm) last,
          fun k hk => hkept k (hcleared k hk), fun ctx' owner' hmem => ?_⟩
        rcases List.mem_append.mp hmem with hmem | hmem
        · exact hkept owner' (hclaimed ctx' owner' hmem)
        · cases List.mem_singleton.mp hmem
          exact hzero
      · obtain ⟨hshared, hunpaid, hlast⟩ := hu.quiet last hclaim hblock_e
        refine ⟨hshared, fun ctx' hctx' hdue'' => ?_, fun k hk => ?_,
          fun ctx' owner' hmem => ?_⟩
        · refine hdue' ctx' hctx' ?_
          unfold PayState.Due at hdue'' ⊢
          rwa [hlast] at hdue''
        · rw [hunpaid]
          exact hcleared k hk
        · rw [hunpaid]
          rcases List.mem_append.mp hmem with hmem | hmem
          · exact hclaimed ctx' owner' hmem
          · rw [← List.mem_singleton.mp hmem] at hclaim
            exact absurd trivial hclaim

/-- The first claim of a block finds the whole bucket. -/
theorem BlockCounts.sharing (hc : c.BlockCounts es) (hready : c.PayReady)
    (hU : 0 < c.sys.pay.totalUnpaidBlocks) (hB : 0 ≤ B) :
    c.Sharing es B c.sys.pay.totalUnpaidBlocks c.sys.unpaid B 0 where
  ready := hready
  counts := hc
  pot := ⟨.full hB (by exact_mod_cast hU), rfl, rfl⟩
  paid_nonneg _ := le_refl 0
  total_paid := by rw [total_zero, zero_add]
  fair _ := .inl rfl

end Sharing

/-- The bucket `B` is shared out for `U` blocks: every producer gets its part,
all of the bucket is paid and no block is left to be paid for. -/
structure SharedOut (B U : ℤ) (paid : Name → ℤ) (c c' : Chain) : Prop where
  part : ∀ p ∈ c.sys.election.producers.rows,
    B * p.unpaidBlocks / U ≤ paid p.owner
  sum : total paid = B
  bucket : c'.sys.pay.perblockBucket = 0
  blocks : c'.sys.pay.totalUnpaidBlocks = 0

/-- Where no producer has an unpaid block any more, the bucket has been shared
out. -/
theorem Sharing.sharedOut {B bucket : ℤ} {paid : Name → ℤ}
    (h : c'.Sharing es B c.sys.pay.totalUnpaidBlocks c.sys.unpaid bucket paid)
    (hbucket : c'.sys.pay.perblockBucket = bucket)
    (hnone : c'.sys.unpaid = 0) :
    SharedOut B c.sys.pay.totalUnpaidBlocks paid c c' := by
  have hblocks : c'.sys.pay.totalUnpaidBlocks = 0 := by
    have hcounted := h.counts.counted
    rw [hnone, total_zero] at hcounted
    exact_mod_cast hcounted
  have hempty : bucket = 0 := by
    obtain ⟨pot, hamount, hshares⟩ := h.pot
    rw [← hamount]
    exact pot.empty (by rw [hshares, hblocks]; rfl)
  refine ⟨fun p hp => ?_, ?_, hbucket.trans hempty, hblocks⟩
  · have hview : c.sys.unpaid p.owner = p.unpaidBlocks :=
      view_of_find (KeyedTable.mem_rows.mp hp)
    have hnonneg := h.paid_nonneg p.owner
    rcases h.fair p.owner with hsame | ⟨_, hfair⟩
    · rw [← hview, ← hsame, hnone, Pi.zero_apply, mul_zero, Int.zero_ediv]
      exact hnonneg
    · rw [← hview]
      exact hfair
  · have htotal := h.total_paid
    rw [hempty, add_zero] at htotal
    exact htotal

/-- An account with unpaid blocks has a row with them. -/
private theorem row_of_unpaid {s : SysState} {k : Name} (hk : s.unpaid k ≠ 0) :
    ∃ p ∈ s.election.producers.rows, p.owner = k ∧ 0 < p.unpaidBlocks := by
  unfold SysState.unpaid view at hk
  cases hfind : s.election.producers.find k with
  | none => simp [hfind] at hk
  | some p =>
      obtain ⟨hrow, howner⟩ := KeyedTable.find_eq_some_iff.mp hfind
      have hne : p.unpaidBlocks ≠ 0 := by simpa [hfind] using hk
      exact ⟨p, hrow, howner, Nat.pos_of_ne_zero hne⟩

/-- When every producer with unpaid blocks has claimed in a block, the bucket
has been shared out if it was not negative. -/
theorem claims_sharedOut (hc : c.BlockCounts es) (hready : c.PayReady)
    (hlength : (blockSlots es).length < 2 ^ 32)
    (hU : 0 < c.sys.pay.totalUnpaidBlocks) {ctx : Ctx} {owner : Name}
    {filled : SysState}
    (hfill : System.fillBuckets ctx c.token c.sys = .ok filled)
    (hB : 0 ≤ filled.pay.perblockBucket)
    (hdouble : filled.pay.perblockBucket < 2 ^ 53)
    (hfits : ∀ p ∈ c.sys.election.producers.rows,
      filled.pay.perblockBucket * p.unpaidBlocks < 2 ^ 63)
    (h : Run (Step env) c (.system ctx (.claimrewards owner) :: ds) c')
    (hslot : ∀ e ∈ ds, e.ctx.slot = ctx.slot)
    (hblocks : ∀ e ∈ ds, e.blockSlot = none)
    (hall : ∀ p ∈ c.sys.election.producers.rows, 0 < p.unpaidBlocks →
      ∃ ctx', .system ctx' (.claimrewards p.owner) ∈
        .system ctx (.claimrewards owner) :: ds) :
    SharedOut filled.pay.perblockBucket c.sys.pay.totalUnpaidBlocks
      (blockPayments env c (.system ctx (.claimrewards owner) :: ds)) c c' := by
  obtain ⟨c₁, hfirst, hrest⟩ := h.uncons
  have hpos : (0 : ℤ) < c.sys.pay.totalUnpaidBlocks := by exact_mod_cast hU
  have hfits' : ∀ k, filled.pay.perblockBucket * c.sys.unpaid k < 2 ^ 63 := by
    intro k
    unfold SysState.unpaid view
    cases hfind : c.sys.election.producers.find k with
    | none => simp
    | some p => exact hfits p (KeyedTable.find_eq_some_iff.mp hfind).1
  obtain ⟨hshared, hzero, hkept⟩ := (hc.sharing hready hU hB).claim hpos
    hlength hdouble (unpaid_nonneg c.sys) hfits'
    (fun filled' hfill' => by
      cases Except.ok.inj (hfill.symm.trans hfill')
      rfl) hfirst
  obtain ⟨hend, _, hkept', hclaimed⟩ := hshared.run hpos hlength hdouble
    (unpaid_nonneg c.sys) hfits'
    (fun ctx' hctx' => not_due_of_claim hready hctx' hfirst) hrest hslot
    hblocks
  have hpaid : 0 + c.blockPay (.system ctx (.claimrewards owner)) +
      blockPayments env c₁ ds =
        blockPayments env c (.system ctx (.claimrewards owner) :: ds) := by
    rw [zero_add, blockPayments_cons hfirst]
  rw [hpaid] at hend
  -- in the end nobody has an unpaid block
  have hnone : c'.sys.unpaid = 0 := by
    funext k
    by_cases hk : c.sys.unpaid k = 0
    · exact hkept' k (hkept k hk)
    · obtain ⟨p, hrow, howner, hpos⟩ := row_of_unpaid hk
      obtain ⟨ctx', hmem⟩ := hall p hrow hpos
      rw [howner] at hmem
      rcases List.mem_cons.mp hmem with hmem | hmem
      · cases hmem
        exact hkept' _ hzero
      · exact hclaimed ctx' k hmem
  exact hend.sharedOut rfl hnone

theorem blockCounts_run (hrun : Run (Step env) (genesis env) es c)
    (hslots : (0 :: blockSlots es).Nodup) : c.BlockCounts es := by
  suffices hkept : c.BlockCounts es ∧ c.sys.pay.Ranged from hkept.1
  induction hrun with
  | nil => exact ⟨blockCounts_genesis env, ranged_run (.nil _)⟩
  | @snoc u v ds e init last ih =>
      have hbefore := hslots
      rw [blockSlots_snoc, ← List.cons_append] at hbefore
      obtain ⟨hcounts, hranged⟩ := ih (List.nodup_append.mp hbefore).1
      exact ⟨hcounts.step hranged.factors last hslots,
        ranged_step hranged last⟩

end Chain

/-- **The block pay is fair in any order of claims, exactly when the bucket has
room for the inflation of the block**, with at most one block to a slot and none
in slot 0, a bucket below 2^53 and products that fit.  When in one block all
producers with unpaid blocks have claimed, in whatever order and whatever else
has happened in between, everybody has got its part of the bucket as it was
after the fill, all of it has been paid and nothing is left; but a bucket that
has wrapped around is negative and never paid. -/
theorem block_pay_fair_iff {env : Env} {es ds : List Event} {c c' : Chain}
    (hrun : Run (Chain.Step env) (.genesis env) es c)
    (hslots : (0 :: blockSlots es).Nodup)
    (hU : 0 < c.sys.pay.totalUnpaidBlocks) {ctx : Ctx} {owner : Name}
    {core : Symbol} {supply : Asset} {filled : SysState}
    (hcore : c.sys.market.coreSymbol = .ok core)
    (hsupply : Token.getSupply c.token core.code = .ok supply)
    (hfill : System.fillBuckets ctx c.token c.sys = .ok filled)
    (hfits : ∀ p ∈ c.sys.election.producers.rows,
      filled.pay.perblockBucket * p.unpaidBlocks < 2 ^ 63)
    (hdouble : filled.pay.perblockBucket < 2 ^ 53)
    (h : Run (Chain.Step env) c
      (.system ctx (.claimrewards owner) :: ds) c')
    (hslot : ∀ e ∈ ds, e.ctx.slot = ctx.slot)
    (hblocks : ∀ e ∈ ds, e.blockSlot = none)
    (hall : ∀ p ∈ c.sys.election.producers.rows, 0 < p.unpaidBlocks →
      ∃ ctx', .system ctx' (.claimrewards p.owner) ∈
        .system ctx (.claimrewards owner) :: ds) :
    filled.pay.totalUnpaidBlocks = c.sys.pay.totalUnpaidBlocks ∧
    (Chain.SharedOut filled.pay.perblockBucket c.sys.pay.totalUnpaidBlocks
      (Chain.blockPayments env c (.system ctx (.claimrewards owner) :: ds))
      c c' ↔
    0 ≤ c.sys.pay.perblockBucket + (c.sys.pay.inflation supply.amount
        ctx.currentTimePoint).toPerBlockPay ∧
      c.sys.pay.perblockBucket + (c.sys.pay.inflation supply.amount
        ctx.currentTimePoint).toPerBlockPay < 2 ^ 63) := by
  have hready := Chain.payReady_run hrun
  obtain ⟨hlo, hhi⟩ := hready.ranged.perblock
  obtain ⟨core', supply', hcore', hsupply', hmax, rfl⟩ :=
    System.fillBuckets_ok hfill
  cases Except.ok.inj (hcore.symm.trans hcore')
  cases Except.ok.inj (hsupply.symm.trans hsupply')
  obtain ⟨hsave, hblock, hvote, hsum, hnew⟩ :=
    PayState.inflation_bounds hready.ranged.factors hmax
  obtain ⟨_, _, hrest⟩ := c.sys.pay.filledAt_rest supply.amount
    ctx.currentTimePoint
  have hbucket : (c.sys.pay.filledAt supply.amount
      ctx.currentTimePoint).perblockBucket = _ :=
    PayState.filledAt_perblockBucket supply.amount hlo hhi
  refine ⟨by dsimp only; rw [hrest], ?_⟩
  rw [← i64_nonneg_iff (by omega) (by unfold Asset.maxAmount at hmax; omega),
    ← hbucket]
  constructor
  · intro hshared
    have hsum := hshared.sum
    have hpaid := total_nonneg (hready.blockPayments_nonneg h)
    rwa [hsum] at hpaid
  · intro hB
    exact Chain.claims_sharedOut (Chain.blockCounts_run hrun hslots) hready
      (length_blockSlots hslots) hU hfill hB hdouble hfits h hslot hblocks hall

/-- Of the bucket for three blocks bob claims his part first. -/
theorem block_pay_fair_sample : ∃ (c c' : Chain) (filled : SysState),
    filled.pay.perblockBucket = 775672 ∧
    Chain.SharedOut 775672 3 (Chain.blockPayments payEnv c
      [.system (.signedBy bob 200000) (.claimrewards bob),
        .system (.signedBy alice 200000) (.claimrewards alice)]) c c' := by
  have hsample : Finishes (producingBlocks.foldlM (Chain.exec payEnv)
      (.genesis payEnv)) (fun c => c.sys.pay.totalUnpaidBlocks = 3 ∧
        Finishes c.sys.market.coreSymbol (fun core =>
        Finishes (Token.getSupply c.token core.code) (fun supply =>
        0 ≤ c.sys.pay.perblockBucket + (c.sys.pay.inflation supply.amount
            (Ctx.signedBy bob 200000).currentTimePoint).toPerBlockPay ∧
          c.sys.pay.perblockBucket + (c.sys.pay.inflation supply.amount
            (Ctx.signedBy bob 200000).currentTimePoint).toPerBlockPay <
              2 ^ 63)) ∧
        Finishes (System.fillBuckets (.signedBy bob 200000) c.token c.sys)
          (fun filled => filled.pay.perblockBucket = 775672 ∧
            (∀ p ∈ c.sys.election.producers.rows,
              filled.pay.perblockBucket * p.unpaidBlocks < 2 ^ 63) ∧
            (∀ p ∈ c.sys.election.producers.rows, 0 < p.unpaidBlocks →
              p.owner = bob ∨ p.owner = alice)) ∧
        Finishes ([Event.system (.signedBy bob 200000) (.claimrewards bob),
          .system (.signedBy alice 200000) (.claimrewards alice)].foldlM
            (Chain.exec payEnv) c) (fun _ => True)) := by
    decide +kernel
  obtain ⟨c, hrun, htotal, ⟨core, hcore, supply, hsupply, hroom⟩,
    ⟨filled, hfill, hbucket, hfits, hall⟩, c', hclaims, _⟩ := hsample
  refine ⟨c, c', filled, hbucket, ?_⟩
  rw [hbucket] at hfits
  have hfair := (block_pay_fair_iff (Run.of_foldlM hrun) (by decide)
    (by rw [htotal]; decide) hcore hsupply hfill (by rwa [hbucket])
    (by rw [hbucket]; decide) (Run.of_foldlM hclaims)
    (by simp [Event.ctx, Ctx.signedBy]) (by simp [Event.blockSlot])
    (fun p hp hpos => by
      rcases hall p hp hpos with howner | howner
      · exact ⟨.signedBy bob 200000, by simp [howner]⟩
      · exact ⟨.signedBy alice 200000, by simp [howner]⟩)).2.mpr hroom
  rwa [hbucket, htotal] at hfair

/-- The bucket of the third claim after three years each has wrapped around:
alice, who has the only unpaid block, is paid nothing of it. -/
theorem wrapped_bucket_not_shared : ∃ (c c' : Chain) (filled : SysState),
    Chain.Reachable steepEnv c ∧ c.sys.pay.totalUnpaidBlocks = 1 ∧
    System.fillBuckets (.signedBy alice 566092804) c.token c.sys =
      .ok filled ∧
    (∀ p ∈ c.sys.election.producers.rows,
      -2 ^ 63 ≤ filled.pay.perblockBucket * p.unpaidBlocks ∧
      filled.pay.perblockBucket * p.unpaidBlocks < 2 ^ 63) ∧
    filled.pay.perblockBucket < 2 ^ 53 ∧
    Chain.Step steepEnv c
      (.system (.signedBy alice 566092804) (.claimrewards alice)) c' ∧
    (∀ p ∈ c.sys.election.producers.rows,
      0 < p.unpaidBlocks → p.owner = alice) ∧
    total (Chain.blockPayments steepEnv c
      [.system (.signedBy alice 566092804) (.claimrewards alice)]) ≠
        filled.pay.perblockBucket := by
  have hsample : Finishes ((refillingEvents ++
      [Event.system (.signedBy systemAccount 377395205)
        (.onblock 377395205 alice)]).foldlM (Chain.exec steepEnv)
      (.genesis steepEnv)) (fun c => c.sys.pay.totalUnpaidBlocks = 1 ∧
        Finishes (System.fillBuckets (.signedBy alice 566092804) c.token c.sys)
          (fun filled => filled.pay.perblockBucket < 0 ∧
            (∀ p ∈ c.sys.election.producers.rows,
              -2 ^ 63 ≤ filled.pay.perblockBucket * p.unpaidBlocks ∧
              filled.pay.perblockBucket * p.unpaidBlocks < 2 ^ 63)) ∧
        (∀ p ∈ c.sys.election.producers.rows,
          0 < p.unpaidBlocks → p.owner = alice) ∧
        Finishes (Chain.exec steepEnv c
          (.system (.signedBy alice 566092804) (.claimrewards alice)))
          (fun _ => True)) := by
    decide +kernel
  obtain ⟨c, hrun, htotal, ⟨filled, hfill, hneg, hfits⟩, howner, c', hstep,
    _⟩ := hsample
  have hreach := Run.of_foldlM hrun
  have hpaid := total_nonneg ((Chain.payReady_run hreach).blockPayments_nonneg
    (Run.single hstep))
  exact ⟨c, c', filled, ⟨_, hreach⟩, htotal, hfill, hfits,
    hneg.trans (by decide), hstep, howner, by omega⟩

end Inery
