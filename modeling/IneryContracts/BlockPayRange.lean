import IneryContracts.BlockPay

/-!
# Where the block pay overflows

The shares of the inflation are computed with 128 bits, the product of the
bucket and the unpaid blocks of a producer with 64.  The bucket is bounded only
by the supply and the blocks only by time, so the product can leave the range,
and a wrapped product never gives the pay that was meant.  The quotient is then
stored in a double, which rounds it where it has more than 53 binary digits.  In
a run in which no product leaves the range and every quotient is a double every
claim is paid its part of the bucket.
-/

namespace Inery

open GuardedStep LedgerVector LabelledRun MachineInt NearestDouble

/-! ## The product -/

namespace PayState

/-- The block pay is what it is meant to be: nothing wraps around or is rounded,
and the producer gets its part of the bucket. -/
structure PaysExactly (p : PayState) (unpaid : ℕ) : Prop where
  fits : -2 ^ 63 ≤ p.perblockBucket * unpaid ∧
    p.perblockBucket * unpaid < 2 ^ 63
  quotient : p.blockPay unpaid =
    p.perblockBucket * unpaid / p.totalUnpaidBlocks
  nonneg : 0 ≤ p.blockPay unpaid
  le_bucket : p.blockPay unpaid ≤ p.perblockBucket

variable {p : PayState} {unpaid : ℕ}

theorem paysExactly_of_lt (hbucket : 0 ≤ p.perblockBucket)
    (hunpaid : unpaid ≤ p.totalUnpaidBlocks)
    (hlt : p.perblockBucket * unpaid < 2 ^ 63)
    (hdouble : IsDouble (p.perblockBucket * unpaid / p.totalUnpaidBlocks)) :
    p.PaysExactly unpaid := by
  have hprod : 0 ≤ p.perblockBucket * unpaid :=
    mul_nonneg hbucket (Int.natCast_nonneg _)
  have hquotient := (System.blockPay_eq hbucket hlt).trans
    (toDouble_eq_self_iff.mpr hdouble)
  obtain ⟨hnonneg, hle⟩ := System.quotient_bounds hbucket hunpaid
  exact ⟨⟨by omega, hlt⟩, hquotient, hquotient ▸ hnonneg, hquotient ▸ hle⟩

/-- What is paid exactly is a double. -/
theorem PaysExactly.isDouble (h : p.PaysExactly unpaid) :
    toDouble (p.blockPay unpaid) = p.blockPay unpaid := by
  have hrounded := System.blockPay_eq (h.nonneg.trans h.le_bucket) h.fits.2
  rw [← h.quotient] at hrounded
  exact hrounded.symm

end PayState

/-! ## Claims that fit -/

/-- The bucket with the share of the inflation since the last fill. -/
def PayState.filledBucket (p : PayState) (supply ct : ℤ) : ℤ :=
  p.perblockBucket + (p.inflation supply ct).toPerBlockPay

/-- The bucket after the fill of a claim, times the blocks that it is for, is a
64-bit number, and so is the bucket itself; and the part of the bucket for these
blocks is a double, as it always is with a bucket below 2^53. -/
def Event.PayFits (c : Chain) : Event → Prop
  | system ctx (.claimrewards owner) => ∀ core supply prod,
      c.sys.market.coreSymbol = .ok core →
      Token.getSupply c.token core.code = .ok supply →
      c.sys.election.producers.find owner = some prod →
      let bucket := c.sys.pay.filledBucket supply.amount ctx.currentTimePoint
      let quotient := bucket * prod.unpaidBlocks / c.sys.pay.totalUnpaidBlocks
      bucket * (max 1 prod.unpaidBlocks : ℕ) < 2 ^ 63 ∧
        IsDouble quotient
  | _ => True

namespace Chain

/-- The block pay after the events: the blocks are counted, the factors are as
`setinflation` checks them, and the bucket has not wrapped around. -/
structure BlockRange (es : List Event) (c : Chain) : Prop where
  counts : c.BlockCounts es
  factors : c.sys.pay.FactorsOk
  bucket : 0 ≤ c.sys.pay.perblockBucket
  bucket_lt : c.sys.pay.perblockBucket < 2 ^ 63

variable {env : Env} {c c' : Chain} {es : List Event} {e : Event}

/-- The fill of a claim. -/
theorem BlockRange.filled (hc : c.BlockRange es) {ctx : Ctx}
    {filled : SysState}
    (hfill : System.fillBuckets ctx c.token c.sys = .ok filled) :
    ∃ core supply share, c.sys.market.coreSymbol = .ok core ∧
      Token.getSupply c.token core.code = .ok supply ∧
      share = (c.sys.pay.inflation supply.amount
        ctx.currentTimePoint).toPerBlockPay ∧
      0 ≤ share ∧ share < 2 ^ 62 ∧
      filled.pay.perblockBucket = i64 (c.sys.pay.perblockBucket + share) ∧
      filled.pay.totalUnpaidBlocks = c.sys.pay.totalUnpaidBlocks ∧
      filled.pay.FactorsOk := by
  obtain ⟨core, supply, hcore, hsupply, hmax, rfl⟩ :=
    System.fillBuckets_ok hfill
  obtain ⟨hsave, hblock, hvote, hsum, hnew⟩ :=
    PayState.inflation_bounds hc.factors hmax
  have hlo := hc.bucket
  obtain ⟨_, _, hrest⟩ := c.sys.pay.filledAt_rest supply.amount
    ctx.currentTimePoint
  have hlt : (c.sys.pay.inflation supply.amount
      ctx.currentTimePoint).toPerBlockPay < 2 ^ 62 := by
    unfold Asset.maxAmount at hmax
    omega
  refine ⟨core, supply, _, hcore, hsupply, rfl, hblock, hlt, ?_, ?_, ?_⟩
  · exact PayState.filledAt_perblockBucket _ (by omega) hc.bucket_lt
  · show (c.sys.pay.filledAt _ _).totalUnpaidBlocks = _
    rw [hrest]
  · show (c.sys.pay.filledAt _ _).FactorsOk
    rw [hrest]
    exact ⟨hc.factors.inflation, hc.factors.votepay⟩

/-- **A claim is paid exactly if and only if it fits.** -/
theorem BlockRange.paysExactly_iff (hc : c.BlockRange es) {ctx : Ctx}
    {owner : Name} {filled : SysState} {prod : ProducerInfo}
    (hfill : System.fillBuckets ctx c.token c.sys = .ok filled)
    (hprod : c.sys.election.producers.find owner = some prod) :
    (Event.system ctx (.claimrewards owner)).PayFits c ↔
      filled.pay.PaysExactly prod.unpaidBlocks := by
  obtain ⟨core, supply, share, hcore, hsupply, hshare, hnonneg, hlt, hbucket,
    htotal, _⟩ := hc.filled hfill
  have hlo := hc.bucket
  have hhi := hc.bucket_lt
  have hfits : (Event.system ctx (.claimrewards owner)).PayFits c ↔
      (c.sys.pay.perblockBucket + share) * max 1 prod.unpaidBlocks < 2 ^ 63 ∧
        IsDouble ((c.sys.pay.perblockBucket + share) * prod.unpaidBlocks /
          c.sys.pay.totalUnpaidBlocks) := by
    constructor
    · intro h
      rw [hshare]
      exact h core supply prod hcore hsupply hprod
    · intro h core' supply' prod' hcore' hsupply' hprod'
      cases Except.ok.inj (hcore.symm.trans hcore')
      cases Except.ok.inj (hsupply.symm.trans hsupply')
      cases Option.some.inj (hprod.symm.trans hprod')
      rwa [hshare] at h
  rw [hfits]
  constructor
  · rintro ⟨h, hdouble⟩
    have hone : (c.sys.pay.perblockBucket + share) * 1 ≤
        (c.sys.pay.perblockBucket + share) * max 1 prod.unpaidBlocks :=
      mul_le_mul_of_nonneg_left (by omega) (by omega)
    have hblocks : (c.sys.pay.perblockBucket + share) * prod.unpaidBlocks ≤
        (c.sys.pay.perblockBucket + share) * max 1 prod.unpaidBlocks :=
      mul_le_mul_of_nonneg_left (by omega) (by omega)
    have hsum : filled.pay.perblockBucket =
        c.sys.pay.perblockBucket + share :=
      hbucket.trans (i64_of_range (by omega) (by omega))
    refine PayState.paysExactly_of_lt (by omega) ?_ (by rw [hsum]; omega)
      (by rwa [hsum, htotal])
    rw [htotal]
    exact hc.counts.unpaid_le hprod
  · intro h
    have hpaid := h.nonneg.trans h.le_bucket
    have hsum : filled.pay.perblockBucket =
        c.sys.pay.perblockBucket + share := by
      rw [hbucket] at hpaid ⊢
      -- a sum that wraps around is negative
      unfold i64 at hpaid ⊢
      rw [Int.bmod_def] at hpaid ⊢
      omega
    have hrange := (i64_bounds (c.sys.pay.perblockBucket + share)).2
    rw [← hbucket, hsum] at hrange
    have hfit := h.fits.2
    have hquotient := h.quotient
    rw [System.blockPay_eq hpaid hfit, hsum, htotal] at hquotient
    refine ⟨?_, toDouble_eq_self_iff.mp hquotient⟩
    rw [hsum] at hfit
    rcases Nat.eq_zero_or_pos prod.unpaidBlocks with hzero | hpos
    · rw [hzero]
      simpa using hrange
    · rwa [max_eq_right (by exact_mod_cast hpos)]

theorem BlockRange.step (hc : c.BlockRange es) (h : Step env c e c')
    (hslots : (0 :: blockSlots (es ++ [e])).Nodup) (hfits : e.PayFits c) :
    c'.BlockRange (es ++ [e]) := by
  have hcounts := hc.counts.step hc.factors h hslots
  by_cases hclaim : e.IsClaim
  · obtain ⟨ctx, owner, rfl⟩ := isClaim_iff.mp hclaim
    obtain ⟨s, hs, hsys⟩ := step_system h
    obtain ⟨p, hpaid, _, _, hrange⟩ :=
      System.claimrewards_settled hc.factors hs
    have hpay : c'.sys.pay = s.pay := by rw [hsys]
    have hexact := (hc.paysExactly_iff hpaid.fill hpaid.row).mp hfits
    obtain ⟨_, _, _, _, _, _, _, _, _, _, hfactors⟩ := hc.filled hpaid.fill
    have hleft := congrArg PayState.perblockBucket hpaid.pay
    have hbucket : 0 ≤ toDouble p.filled.pay.perblockBucket - p.perblock := by
      have hmono := toDouble_mono hexact.nonneg hexact.le_bucket
      rw [hexact.isDouble] at hmono
      exact sub_nonneg.mpr hmono
    refine ⟨hcounts, ?_, ?_, hpay ▸ hrange.2⟩
    · rw [hpay, hpaid.pay]
      exact ⟨hfactors.inflation, hfactors.votepay⟩
    · rw [hpay, hleft]
      exact toDouble_nonneg hbucket
  · obtain ⟨hfactors, hbucket, _⟩ := step_unclaimed h hclaim hc.factors
    exact ⟨hcounts, hfactors, hbucket ▸ hc.bucket, hbucket ▸ hc.bucket_lt⟩

end Chain

/-- Alice produces eight blocks. -/
def eightBlocks : List Event :=
  [4, 5, 6, 7, 8, 9, 10, 11].map (fun slot =>
    .system (.signedBy systemAccount slot) (.onblock slot alice))

/-- With a single block of hers alice is due the whole bucket, which is rounded
up to a double: the pay is more than the bucket, and the claim stops. -/
theorem block_pay_rounded : ∃ (c : Chain) (filled : SysState)
    (prod : ProducerInfo),
    Chain.Reachable steepEnv c ∧
    System.fillBuckets (.signedBy alice 62899204) c.token c.sys = .ok filled ∧
    c.sys.election.producers.find alice = some prod ∧
    filled.pay.perblockBucket * prod.unpaidBlocks < 2 ^ 63 ∧
    filled.pay.perblockBucket < filled.pay.blockPay prod.unpaidBlocks ∧
    ∀ c', ¬ Chain.Step steepEnv c
      (.system (.signedBy alice 62899204) (.claimrewards alice)) c' := by
  have hsample : Finishes ((inflatedEvents (2 * 10 ^ 18) 10000 ++
      eightBlocks.take 1).foldlM (Chain.exec steepEnv) (.genesis steepEnv))
      (fun c =>
        Finishes (System.fillBuckets (.signedBy alice 62899204) c.token c.sys)
          (fun filled => (c.sys.election.producers.find alice).any
              (fun prod =>
                filled.pay.perblockBucket * prod.unpaidBlocks < 2 ^ 63 ∧
                filled.pay.perblockBucket <
                  filled.pay.blockPay prod.unpaidBlocks) = true) ∧
        ¬ Finishes (Chain.exec steepEnv c
            (.system (.signedBy alice 62899204) (.claimrewards alice)))
          (fun _ => True)) := by
    decide +kernel
  obtain ⟨c, hrun, ⟨filled, hfill, hany⟩, hstops⟩ := hsample
  obtain ⟨prod, hprod, hboth⟩ := (Option.any_eq_true _ _).mp hany
  obtain ⟨hproduct, hmore⟩ := of_decide_eq_true hboth
  exact ⟨c, filled, prod, ⟨_, Run.of_foldlM hrun⟩, hfill, hprod, hproduct,
    hmore, fun c' hstep => hstops ⟨c', hstep, trivial⟩⟩

end Inery
