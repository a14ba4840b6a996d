import IneryContracts.TokenFlow
import IneryContracts.SystemContract

/-!
# The inflation of a claim

A claim first issues the inflation since the last fill of the buckets, divides
it by the two factors and sends on the shares.  This file says once what that
does: the tokens that are due, their division into three shares, the actions
that are sent for them, and the pay of the new state.
-/

namespace Inery

open GuardedStep LedgerVector MachineInt

/-- The factors that divide the inflation, as `setinflation` checks them. -/
structure PayState.FactorsOk (p : PayState) : Prop where
  inflation : payFactorPrecision ≤ p.inflationPayFactor
  votepay : payFactorPrecision ≤ p.votepayFactor

namespace PayState

/-- Time has passed since the last fill, and there has been one. -/
def Due (p : PayState) (ct : ℤ) : Prop :=
  ct - p.lastPervoteBucketFill > 0 ∧ p.lastPervoteBucketFill > 0

instance (p : PayState) (ct : ℤ) : Decidable (p.Due ct) :=
  inferInstanceAs (Decidable (_ ∧ _))

/-- The inflation that is due, in tokens and parts of them. -/
def additionalInflation (p : PayState) (supply ct : ℤ) : ℚ :=
  p.continuousRate * supply * (ct - p.lastPervoteBucketFill : ℤ) /
    (usecondsPerYear : ℤ)

/-- The tokens that a claim at `ct` issues. -/
def newTokens (p : PayState) (supply ct : ℤ) : ℤ :=
  if p.Due ct then max 0 ⌊p.additionalInflation supply ct⌋ else 0

/-- The shares of the tokens that a claim at `ct` issues. -/
def inflation (p : PayState) (supply ct : ℤ) : System.Inflation :=
  System.splitInflation p (p.newTokens supply ct)

/-- The pay after the fill of a claim at `ct`. -/
def filledAt (p : PayState) (supply ct : ℤ) : PayState :=
  if p.Due ct then
    { p with
      pervoteBucket :=
        i64 (p.pervoteBucket + (p.inflation supply ct).toPerVotePay)
      perblockBucket :=
        i64 (p.perblockBucket + (p.inflation supply ct).toPerBlockPay)
      lastPervoteBucketFill := ct }
  else p

end PayState

namespace System

/-! ## The shares -/

/-- A share by a factor is a part. -/
private theorem share_bounds {x factor : ℤ} (hx : 0 ≤ x)
    (hx' : x ≤ Asset.maxAmount) (hfactor : payFactorPrecision ≤ factor) :
    0 ≤ i64 ((x * payFactorPrecision).tdiv factor) ∧
      i64 ((x * payFactorPrecision).tdiv factor) ≤ x := by
  have hpos : (0 : ℤ) < payFactorPrecision := by decide
  have hprod : 0 ≤ x * payFactorPrecision := mul_nonneg hx hpos.le
  have hle : x * payFactorPrecision / factor ≤ x :=
    Int.ediv_le_of_le_mul (hpos.trans_le hfactor)
      (mul_le_mul_of_nonneg_left hfactor hx)
  have hnonneg : 0 ≤ x * payFactorPrecision / factor :=
    Int.ediv_nonneg hprod (hpos.le.trans hfactor)
  rw [Int.tdiv_eq_ediv_of_nonneg hprod, i64_of_range]
  · exact ⟨hnonneg, hle⟩
  · omega
  · unfold Asset.maxAmount at hx'
    omega

/-- The shares of the inflation are parts of it. -/
theorem splitInflation_bounds {pay : PayState} {x : ℤ} (hpay : pay.FactorsOk)
    (hx : 0 ≤ x) (hx' : x ≤ Asset.maxAmount) :
    0 ≤ (splitInflation pay x).toSavings ∧
    0 ≤ (splitInflation pay x).toPerBlockPay ∧
    0 ≤ (splitInflation pay x).toPerVotePay ∧
    (splitInflation pay x).toSavings + (splitInflation pay x).toPerBlockPay +
      (splitInflation pay x).toPerVotePay = x := by
  obtain ⟨hproducers, hproducers'⟩ := share_bounds hx hx' hpay.inflation
  obtain ⟨hblock, hblock'⟩ := share_bounds hproducers (hproducers'.trans hx')
    hpay.votepay
  simp only [splitInflation]
  omega

end System

namespace PayState

variable {p : PayState} {ct : ℤ}

theorem newTokens_nonneg (p : PayState) (supply ct : ℤ) :
    0 ≤ p.newTokens supply ct := by
  unfold newTokens
  split
  · exact le_max_left _ _
  · exact le_refl 0

/-- The shares of the inflation that is due are parts of it. -/
theorem inflation_bounds {supply : ℤ} (hp : p.FactorsOk)
    (hmax : p.newTokens supply ct ≤ Asset.maxAmount) :
    0 ≤ (p.inflation supply ct).toSavings ∧
    0 ≤ (p.inflation supply ct).toPerBlockPay ∧
    0 ≤ (p.inflation supply ct).toPerVotePay ∧
    (p.inflation supply ct).toSavings + (p.inflation supply ct).toPerBlockPay +
      (p.inflation supply ct).toPerVotePay =
        (p.inflation supply ct).newTokens ∧
    (p.inflation supply ct).newTokens = p.newTokens supply ct := by
  obtain ⟨hsave, hblock, hvote, hsum⟩ :=
    System.splitInflation_bounds hp (p.newTokens_nonneg supply ct) hmax
  exact ⟨hsave, hblock, hvote, hsum, rfl⟩

theorem inflation_of_not_due (supply : ℤ) (h : ¬ p.Due ct) :
    p.inflation supply ct = ⟨0, 0, 0, 0⟩ := by
  have hzero : p.newTokens supply ct = 0 := if_neg h
  rw [inflation, hzero]
  simp [System.splitInflation, i64]

/-- The bucket of the block pay after a fill, whether or not one is due. -/
theorem filledAt_perblockBucket (supply : ℤ) (hlo : -2 ^ 63 ≤ p.perblockBucket)
    (hhi : p.perblockBucket < 2 ^ 63) :
    (p.filledAt supply ct).perblockBucket =
      i64 (p.perblockBucket + (p.inflation supply ct).toPerBlockPay) := by
  unfold filledAt
  split
  · rfl
  · next hdue =>
      rw [inflation_of_not_due supply hdue, add_zero, i64_of_range hlo hhi]

/-- The bucket of the vote pay after a fill, whether or not one is due. -/
theorem filledAt_pervoteBucket (supply : ℤ) (hlo : -2 ^ 63 ≤ p.pervoteBucket)
    (hhi : p.pervoteBucket < 2 ^ 63) :
    (p.filledAt supply ct).pervoteBucket =
      i64 (p.pervoteBucket + (p.inflation supply ct).toPerVotePay) := by
  unfold filledAt
  split
  · rfl
  · next hdue =>
      rw [inflation_of_not_due supply hdue, add_zero, i64_of_range hlo hhi]

/-- A fill leaves all but the buckets and its time alone. -/
theorem filledAt_rest (p : PayState) (supply ct : ℤ) :
    ∃ b v, p.filledAt supply ct = { p with
      pervoteBucket := v
      perblockBucket := b
      lastPervoteBucketFill :=
        if p.Due ct then ct else p.lastPervoteBucketFill } := by
  unfold filledAt
  split
  · exact ⟨_, _, rfl⟩
  · exact ⟨_, _, rfl⟩

end PayState

namespace System

/-! ## What is sent -/

/-- The transfer of a share, when there is something to send. -/
def shareActions (core : Symbol) (to' : Name) (amount : ℤ) (memo : String) :
    List InlineAction :=
  if amount > 0 then
    [⟨[⟨systemAccount, activePermission⟩],
      .transfer systemAccount to' ⟨amount, core⟩ memo⟩]
  else []

/-- The actions that issue the inflation and send on its shares. -/
def inflationActions (core : Symbol) (i : Inflation) : List InlineAction :=
  if i.newTokens > 0 then
    ⟨[⟨systemAccount, activePermission⟩], .issue systemAccount
        ⟨i.newTokens, core⟩ "issue tokens for producer pay and savings"⟩ ::
      (shareActions core savingAccount i.toSavings "unallocated inflation" ++
        shareActions core bpayAccount i.toPerBlockPay
          "fund per-block bucket" ++
        shareActions core vpayAccount i.toPerVotePay "fund per-vote bucket")
  else []

section Sent

variable {s s' : SysState} {core : Symbol} {i : Inflation}

private theorem sendShare_ok {to' : Name} {amount : ℤ} {memo : String}
    (h : sendShare s core to' amount memo = .ok s') :
    s' = { s with
      outbox := s.outbox ++ shareActions core to' amount memo } := by
  unfold sendShare at h
  unfold shareActions
  split at h
  · next hpos =>
      simp only [bind_eq_ok, Asset.make_eq_ok, pure_eq_ok] at h
      obtain ⟨_, ⟨_, _, rfl⟩, rfl⟩ := h
      rw [if_pos hpos]
      rfl
  · next hpos =>
      cases h
      rw [if_neg hpos, List.append_nil]

private theorem distribute_ok (h : distribute s core i = .ok s') :
    s' = { s with outbox := s.outbox ++ inflationActions core i } ∧
      (0 < i.newTokens → i.newTokens ≤ Asset.maxAmount) := by
  unfold distribute at h
  unfold inflationActions
  split at h
  · next hpos =>
      simp only [bind_eq_ok, Asset.make_eq_ok] at h
      obtain ⟨_, ⟨hrange, _, rfl⟩, s₁, h₁, s₂, h₂, h₃⟩ := h
      rw [sendShare_ok h₃, sendShare_ok h₂, sendShare_ok h₁, if_pos hpos]
      refine ⟨?_, fun _ => hrange.2⟩
      simp [SysState.send]
  · next hpos =>
      cases h
      rw [if_neg hpos, List.append_nil]
      exact ⟨rfl, fun hpos' => absurd hpos' hpos⟩

private theorem wholeTokens_ok {x : ℚ} {n : ℤ} (h : wholeTokens x = .ok n) :
    n = max 0 ⌊x⌋ := by
  unfold wholeTokens at h
  split at h
  · next hneg =>
      cases h
      have hfloor : ⌊x⌋ < 0 := Int.floor_lt.mpr (by exact_mod_cast hneg)
      omega
  · next hpos =>
      rw [toInt64_eq_ok] at h
      have hfloor := Int.floor_nonneg.mpr (not_lt.mp hpos)
      rw [h.2, truncate_of_nonneg (not_lt.mp hpos), max_eq_right hfloor]

/-- **What a fill does.** -/
theorem fillBuckets_ok {ctx : Ctx} {t : TokenState}
    (h : fillBuckets ctx t s = .ok s') :
    ∃ core supply, s.market.coreSymbol = .ok core ∧
      Token.getSupply t core.code = .ok supply ∧
      s.pay.newTokens supply.amount ctx.currentTimePoint ≤ Asset.maxAmount ∧
      s' = { s with
        outbox := s.outbox ++ inflationActions core
          (s.pay.inflation supply.amount ctx.currentTimePoint)
        pay := s.pay.filledAt supply.amount ctx.currentTimePoint } := by
  simp only [fillBuckets, bind_eq_ok] at h
  obtain ⟨core, hcore, supply, hsupply, h⟩ := h
  refine ⟨core, supply, hcore, hsupply, ?_⟩
  have hmax : (0 : ℤ) ≤ Asset.maxAmount := by decide
  split at h
  · next hdue =>
      have hdue : s.pay.Due ctx.currentTimePoint := hdue
      simp only [bind_eq_ok, check_eq_ok, pure_eq_ok, exists_const] at h
      obtain ⟨_, x, hwhole, s₁, hdist, rfl⟩ := h
      have hx : x = s.pay.newTokens supply.amount ctx.currentTimePoint := by
        rw [PayState.newTokens, if_pos hdue]
        exact wholeTokens_ok hwhole
      obtain ⟨rfl, hle⟩ := distribute_ok hdist
      have hle' : 0 < x → x ≤ Asset.maxAmount := hle
      constructor
      · omega
      · rw [PayState.filledAt, if_pos hdue, PayState.inflation, ← hx]
  · next hdue =>
      have hdue : ¬ s.pay.Due ctx.currentTimePoint := hdue
      cases h
      have hzero : s.pay.newTokens supply.amount ctx.currentTimePoint = 0 :=
        if_neg hdue
      rw [hzero, PayState.inflation, hzero, PayState.filledAt, if_neg hdue]
      refine ⟨hmax, ?_⟩
      simp [inflationActions, splitInflation]

/-! ## Where the tokens go -/

private theorem shareActions_flow {to' : Name} {amount : ℤ} {memo : String}
    (hamount : 0 ≤ amount) :
    Chain.sentFlow core.code (shareActions core to' amount memo) =
      Pi.single to' amount - Pi.single systemAccount amount := by
  unfold shareActions
  split
  · simp [Chain.sentFlow, TokenAction.flow]
  · next hpos =>
      have hzero : amount = 0 := by omega
      simp [Chain.sentFlow, hzero]

/-- **The inflation goes to three accounts**, and nothing of it stays with the
account that issues it. -/
theorem inflationActions_flow (hsave : 0 ≤ i.toSavings)
    (hblock : 0 ≤ i.toPerBlockPay) (hvote : 0 ≤ i.toPerVotePay)
    (hsum : i.toSavings + i.toPerBlockPay + i.toPerVotePay = i.newTokens) :
    Chain.sentFlow core.code (inflationActions core i) =
      Pi.single savingAccount i.toSavings +
        Pi.single bpayAccount i.toPerBlockPay +
        Pi.single vpayAccount i.toPerVotePay := by
  unfold inflationActions
  split
  · rw [← List.singleton_append, Chain.sentFlow_append, Chain.sentFlow_append,
      Chain.sentFlow_append, shareActions_flow hsave, shareActions_flow hblock,
      shareActions_flow hvote]
    have hissue : Chain.sentFlow core.code
        [⟨[⟨systemAccount, activePermission⟩], .issue systemAccount
          ⟨i.newTokens, core⟩ "issue tokens for producer pay and savings"⟩] =
        Pi.single systemAccount i.newTokens := by
      simp [Chain.sentFlow, TokenAction.flow]
    rw [hissue, ← hsum, Pi.single_add, Pi.single_add]
    abel
  · next hpos =>
      have hzero : i.toSavings = 0 ∧ i.toPerBlockPay = 0 ∧
          i.toPerVotePay = 0 := by omega
      simp [Chain.sentFlow, hzero]

/-- Nothing is destroyed by the actions of a fill. -/
theorem inflationActions_not_isRetire {a : InlineAction}
    (ha : a ∈ inflationActions core i) : ¬ a.action.IsRetire := by
  simp only [inflationActions, shareActions] at ha
  grind [TokenAction.IsRetire]

end Sent

end System

end Inery
