import IneryContracts.PayEffects
import IneryContracts.StakeSolvency
import Mathlib.Algebra.BigOperators.Ring.Finset

/-!
# The block pay is solvent

A block of a registered producer is counted in the row of the producer and in
the total, so the total is the sum over the rows whatever happens to the rows
in between.  A claim takes the part of the bucket that the blocks of the
producer are of the total, and the bucket is backed because a fill brings to
the account that pays from it what it adds to the bucket.
-/

namespace Inery

open GuardedStep LedgerVector LabelledRun MachineInt NearestDouble

/-! ## Balances of accounts that sign nothing -/

/-- Producers are paid in claims only. -/
theorem Event.ne_payroll_of_moves {e : Event} {ms : List Move}
    (hms : e.Moves ms) (hclaim : ¬ e.IsClaim) {m : Move} (hm : m ∈ ms) :
    m ≠ .payroll := by
  rintro rfl
  exact hclaim (Event.partOf_of_moves hms hm)

/-- A move that an account does not sign, but for its refund, takes nothing
from it unless it pays producers, stakes or memory. -/
theorem Moved.pending_le {s s' : SysState} {t : TokenState} {m : Move}
    {core : Symbol} {a : Name} (hmove : Moved s m s') (hstakes : StakeLedger s)
    (hcore : s.market.coreSymbol = .ok core)
    (hsigner : m.Signer a → m = .refunded a) (hpayroll : m ≠ .payroll)
    (hstake : a ≠ stakeAccount) (hmem : a ≠ memAccount) :
    s.pending t core.code a ≤ s'.pending t core.code a := by
  rw [hmove.pending hcore (hstakes.refundsIn hcore) hpayroll, Pi.add_apply]
  have hflow : 0 ≤ m.flow s a := by
    cases m with
    | bought payer receiver quant bytes =>
        have hpayer : a ≠ payer := by
          rintro rfl
          cases hsigner rfl
        simp [Move.flow, payment_apply, hpayer, hmem]
    | paidOut account tokens =>
        have haccount : a ≠ account := by
          rintro rfl
          cases hsigner rfl
        simp [Move.flow, payment_apply, haccount, hmem]
    | staked source owner receiver dn dc ρ =>
        have hsource : a ≠ source := by
          rintro rfl
          cases hsigner rfl
        simp [Move.flow, payment_apply, hsource, hstake]
    | refunded owner =>
        have hnonneg := weight_nonneg (hstakes.refunded_nonneg owner)
        unfold weight at hnonneg
        rw [Move.flow, payment_apply, if_neg hstake]
        split <;> omega
    | _ => exact le_refl 0
  omega

namespace Chain

section Steps

variable {env : Env} {c c' : Chain} {e : Event} {a : Name}

/-- The balance of an account that signs nothing does not fall, unless
producers are paid. -/
theorem Books.liquid_le (hc : c.Books) (h : Step env c e c')
    (hclaim : ¬ e.IsClaim) (htop : ¬ e.TopLevelBy a)
    (hstake : a ≠ stakeAccount) (hmem : a ≠ memAccount) :
    c.liquid a ≤ c'.liquid a := by
  have hc' := hc.step h
  rcases hc.market with hclosed | ⟨core, quote₀, hopen⟩
  · rw [liquid_of_closed hclosed]
    exact hc'.liquid_nonneg a
  rcases step_moves h hc.toSettled with ⟨ctx, b, rfl, hsys, htoken⟩ |
    ⟨ms, s, hran⟩
  · have hcore' : c'.sys.market.coreSymbol = .ok core := by
      rw [hsys]
      exact hopen.coreSymbol
    rw [liquid_of_core hopen.coreSymbol, liquid_of_core hcore']
    exact balances_le_of_not_hasAuth htoken htop core.code
  · have hmoves : ∀ m ∈ ms, (m.Signer a → m = .refunded a) ∧ m ≠ .payroll :=
      fun m hm => ⟨fun hsign =>
          Event.refunded_of_signer hran.moves hm hsign htop,
        Event.ne_payroll_of_moves hran.moves hclaim hm⟩
    have hend := hran.run.invariant (I := fun s => OpenBooks core quote₀ s ∧
        c.sys.pending c.token core.code a ≤ s.pending c.token core.code a)
      (fun m => (m.Signer a → m = .refunded a) ∧ m ≠ .payroll)
      (fun s m s' hp ⟨hs, hle⟩ hm => ⟨hm.openBooks hs, hle.trans
        (hm.pending_le hs.2 hs.1.coreSymbol hp.1 hp.2 hstake hmem)⟩)
      hmoves ⟨⟨hopen, hc.stakes⟩, le_refl _⟩
    rw [hran.liquid_eq hend.1.1, hc.liquid_eq hopen]
    exact hend.2

theorem Books.liquid_le_max (hc : c.Books) (a : Name) :
    c.liquid a ≤ Asset.maxAmount := by
  unfold liquid
  cases c.sys.market.memmarket with
  | none => exact (by decide : (0 : ℤ) ≤ Asset.maxAmount)
  | some row => exact hc.token.le_max _ a

/-- What an event does to the pay. -/
theorem step_pay (h : Step env c e c') :
    ¬ e.IsClaim ∧ SamePay c.sys c'.sys ∨
    (∃ ctx timestamp producer, e = .system ctx (.onblock timestamp producer) ∧
      System.BlockCounted producer c.sys c'.sys) ∨
    (¬ e.IsClaim ∧ c'.sys.unpaid = c.sys.unpaid ∧ c'.sys.pay.FactorsOk ∧
      ∃ continuousRate inflationPayFactor votepayFactor,
        c'.sys.pay = { c.sys.pay with
          continuousRate, inflationPayFactor, votepayFactor }) ∨
    e.IsClaim := by
  obtain ⟨_, _, ⟨ctx, a, rfl, hsys, _⟩ | ⟨ctx, a, s, rfl, happly, _, hsys⟩ |
    ⟨slot, isAccount, owner, rfl, ⟨s, happly, _, hsys⟩ | ⟨_, hsys⟩⟩⟩ :=
    step_cases h
  · rw [hsys]
    exact .inl ⟨id, .refl _⟩
  · have hsame : ∀ {s₁ : SysState}, SamePay s₁ s → SamePay s₁ c'.sys := by
      intro s₁ hs
      rw [hsys]
      exact ⟨hs.pay, hs.unpaid⟩
    rcases System.apply_pay happly with hpay | ⟨timestamp, producer, rfl, hb⟩ |
      ⟨rate, x, y, rfl, hunpaid, hfactors, z, hpay⟩ | ⟨owner, rfl, hclaim⟩
    · by_cases hclaim : (Event.system ctx a).IsClaim
      · exact .inr (.inr (.inr hclaim))
      · exact .inl ⟨hclaim, hsame hpay⟩
    · rw [hsys]
      exact .inr (.inl ⟨ctx, timestamp, producer, rfl, hb.rest, hb.counted⟩)
    · rw [hsys]
      exact .inr (.inr (.inl ⟨id, hunpaid, hfactors, z, x, y, hpay⟩))
    · exact .inr (.inr (.inr trivial))
  · obtain ⟨_, _, _, _, _, rfl⟩ := System.refund_ok happly
    rw [hsys]
    exact .inl ⟨id, ⟨rfl, rfl⟩⟩
  · rw [hsys]
    exact .inl ⟨id, ⟨rfl, rfl⟩⟩

/-- An event that pays nobody leaves the buckets alone. -/
theorem step_unclaimed (h : Step env c e c') (hclaim : ¬ e.IsClaim)
    (hfactors : c.sys.pay.FactorsOk) :
    c'.sys.pay.FactorsOk ∧
    c'.sys.pay.perblockBucket = c.sys.pay.perblockBucket ∧
    c'.sys.pay.pervoteBucket = c.sys.pay.pervoteBucket ∧
    c'.sys.pay.revision = c.sys.pay.revision := by
  rcases step_pay h with ⟨_, hsame⟩ | ⟨_, _, _, _, hblock⟩ |
    ⟨_, _, hfactors', _, _, _, hpay⟩ | hpaid
  · rw [hsame.pay]
    exact ⟨hfactors, rfl, rfl, rfl⟩
  · obtain ⟨_, _, hrest⟩ := hblock.rest
    rw [hrest]
    exact ⟨⟨hfactors.inflation, hfactors.votepay⟩, rfl, rfl, rfl⟩
  · refine ⟨hfactors', ?_⟩
    rw [hpay]
    exact ⟨rfl, rfl, rfl⟩
  · exact absurd hpaid hclaim

theorem isClaim_iff : e.IsClaim ↔
    ∃ ctx owner, e = .system ctx (.claimrewards owner) := by
  constructor
  · intro h
    cases e with
    | system ctx a =>
        cases a with
        | claimrewards owner => exact ⟨ctx, owner, rfl⟩
        | _ => exact h.elim
    | _ => exact h.elim
  · rintro ⟨ctx, owner, rfl⟩
    trivial

/-- **A claim, with its inline actions.**  The two accounts that pay get what
the fill sends them and pay what the claim sends the owner. -/
theorem Books.claimed (hc : c.Books) (hfactors : c.sys.pay.FactorsOk)
    {ctx : Ctx} {owner : Name}
    (h : Step env c (.system ctx (.claimrewards owner)) c') :
    ∃ p s, c'.sys = { s with outbox := [] } ∧
      System.PaidClaim ctx c.token owner p c.sys s ∧
      (owner ≠ bpayAccount → c'.liquid bpayAccount =
        c.liquid bpayAccount + p.forBlocks - max 0 p.perblock) ∧
      (owner ≠ vpayAccount → c'.liquid vpayAccount =
        c.liquid vpayAccount + p.forVotes - ⌊p.pervote⌋) := by
  obtain ⟨_, _, ⟨_, _, heq, _⟩ | ⟨ctx', a, s, heq, hclaim, hout, hsys⟩ |
    ⟨_, _, _, heq, _⟩⟩ := step_cases h
  · cases heq
  · cases heq
    obtain ⟨p, hpaid⟩ := System.claimrewards_paid hfactors hclaim
    obtain ⟨f, hblocks, hvotes, l₁, hl₁, hflow₁, hfilled⟩ := hpaid.filled.sent
    obtain ⟨l₂, hl₂, hflow₂, hout₂⟩ := hpaid.sent
    have hout₁ : p.filled.outbox = l₁ := by
      have hboxes := congrArg SysState.outbox hfilled
      simpa [hc.outbox] using hboxes
    have hcore' : c'.sys.market.coreSymbol = .ok p.core := by
      rw [hsys, (System.claimrewards_ok hclaim).2.2.1]
      exact hpaid.coreSymbol
    have hbal : c'.liquid = c.liquid + (f + (payment bpayAccount owner
        (max 0 p.perblock) + payment vpayAccount owner ⌊p.pervote⌋)) := by
      rw [liquid_of_core hcore', liquid_of_core hpaid.coreSymbol,
        balances_runInline hout, hout₂, hout₁, ← hflow₁, ← hflow₂]
      · simp [sentFlow]
      · intro i hi
        rw [hout₂, hout₁] at hi
        rcases List.mem_append.mp hi with hi | hi
        · exact hl₁ i hi
        · exact hl₂ i hi
    have hne : bpayAccount ≠ vpayAccount := by decide
    refine ⟨p, s, hsys, hpaid, fun howner => ?_, fun howner => ?_⟩
    · simp only [hbal, Pi.add_apply, hblocks, payment_apply, Ne.symm howner,
        hne, if_true, if_false]
      omega
    · simp only [hbal, Pi.add_apply, hvotes, payment_apply, Ne.symm howner,
        Ne.symm hne, if_true, if_false]
      omega
  · cases heq

end Steps

end Chain

/-! ## The slots of blocks -/

/-- The slot of a block. -/
def Event.blockSlot : Event → Option UInt32
  | system ctx (.onblock _ _) => some ctx.slot
  | _ => none

/-- The slots of all blocks. -/
def blockSlots (es : List Event) : List UInt32 :=
  es.filterMap Event.blockSlot

theorem blockSlots_snoc (es : List Event) (e : Event) :
    blockSlots (es ++ [e]) = blockSlots es ++ e.blockSlot.toList := by
  unfold blockSlots
  cases h : e.blockSlot <;> simp [h]

/-- With at most one block to a slot, and none in the first, no 32-bit count of
blocks is exhausted. -/
theorem length_blockSlots {es : List Event}
    (h : (0 :: blockSlots es).Nodup) : (blockSlots es).length < 2 ^ 32 := by
  have hcard := (h.map (f := UInt32.toFin)
    (fun x y hxy => UInt32.toFin_inj.mp hxy)).length_le_card
  rw [Fintype.card_fin, List.length_map, List.length_cons] at hcard
  exact hcard

/-! ## The books of the block pay -/

/-- The pay that a claim computes is exact: the product of bucket and blocks
fits in 64 bits, and the bucket has few enough digits to be a double. -/
def Event.ExactPay (c : Chain) : Event → Prop
  | system ctx (.claimrewards owner) => ∀ filled prod,
      System.fillBuckets ctx c.token c.sys = .ok filled →
      c.sys.election.producers.find owner = some prod →
      filled.pay.perblockBucket * prod.unpaidBlocks < 2 ^ 63 ∧
        filled.pay.perblockBucket < 2 ^ 53
  | _ => True

namespace System

/-- The pay per block is the share of the bucket, as a double. -/
theorem blockPay_eq {p : PayState} {unpaid : ℕ}
    (hbucket : 0 ≤ p.perblockBucket)
    (hfits : p.perblockBucket * unpaid < 2 ^ 63) :
    p.blockPay unpaid =
      toDouble (p.perblockBucket * unpaid / p.totalUnpaidBlocks) := by
  have hprod : 0 ≤ p.perblockBucket * unpaid :=
    mul_nonneg hbucket (Int.natCast_nonneg _)
  unfold PayState.blockPay
  split
  · rw [i64_of_range (by omega) hfits, Int.tdiv_eq_ediv_of_nonneg hprod]
  · next hnone =>
      rw [Nat.eq_zero_of_not_pos hnone, Nat.cast_zero, Int.ediv_zero,
        toDouble_zero]

/-- The share of a producer is a part of the bucket. -/
theorem quotient_bounds {p : PayState} {unpaid : ℕ}
    (hbucket : 0 ≤ p.perblockBucket) (hunpaid : unpaid ≤ p.totalUnpaidBlocks) :
    0 ≤ p.perblockBucket * unpaid / p.totalUnpaidBlocks ∧
      p.perblockBucket * unpaid / p.totalUnpaidBlocks ≤ p.perblockBucket := by
  refine ⟨Int.ediv_nonneg (mul_nonneg hbucket (Int.natCast_nonneg _))
    (Int.natCast_nonneg _), ?_⟩
  rcases Nat.eq_zero_or_pos p.totalUnpaidBlocks with hnone | hpos
  · rw [hnone, Nat.cast_zero, Int.ediv_zero]
    exact hbucket
  · refine Int.ediv_le_of_le_mul (by exact_mod_cast hpos) ?_
    exact mul_le_mul_of_nonneg_left (by exact_mod_cast hunpaid) hbucket

/-- The pay per block is a part of a bucket that is a double. -/
theorem blockPay_bounds {p : PayState} {unpaid : ℕ}
    (hbucket : 0 ≤ p.perblockBucket) (hunpaid : unpaid ≤ p.totalUnpaidBlocks)
    (hfits : p.perblockBucket * unpaid < 2 ^ 63)
    (hdouble : p.perblockBucket < 2 ^ 53) :
    0 ≤ p.blockPay unpaid ∧ p.blockPay unpaid ≤ p.perblockBucket := by
  have hshare := quotient_bounds hbucket hunpaid
  rw [blockPay_eq hbucket hfits, toDouble_of_lt (by omega) (by omega)]
  exact hshare

end System

namespace Chain

/-- The blocks after the events: the total is the sum over the producers, and
no more than there were blocks. -/
structure BlockCounts (es : List Event) (c : Chain) : Prop where
  counted : (c.sys.pay.totalUnpaidBlocks : ℤ) = total c.sys.unpaid
  blocks : c.sys.pay.totalUnpaidBlocks ≤ (blockSlots es).length

section BlockCounts

variable {env : Env} {c c' : Chain} {es : List Event} {e : Event}

theorem unpaid_nonneg (s : SysState) (k : Name) : 0 ≤ s.unpaid k := by
  unfold SysState.unpaid view
  cases s.election.producers.find k with
  | none => exact le_refl 0
  | some p => exact Int.natCast_nonneg _

/-- The blocks of one producer are some of all blocks. -/
theorem BlockCounts.unpaid_le (hc : c.BlockCounts es) {k : Name}
    {p : ProducerInfo} (hp : c.sys.election.producers.find k = some p) :
    p.unpaidBlocks ≤ c.sys.pay.totalUnpaidBlocks := by
  have hle := le_total (unpaid_nonneg c.sys) k
  rw [SysState.unpaid, view_of_find hp, ← SysState.unpaid, ← hc.counted] at hle
  exact_mod_cast hle

/-- A block is counted in both places. -/
theorem BlockCounts.block (hc : c.BlockCounts es) {ctx : Ctx}
    {timestamp : UInt32} {producer : Name}
    (hslots : (0 :: blockSlots
      (es ++ [.system ctx (.onblock timestamp producer)])).Nodup)
    (h : System.BlockCounted producer c.sys c'.sys) :
    c'.BlockCounts (es ++ [.system ctx (.onblock timestamp producer)]) := by
  have hlength := length_blockSlots hslots
  have hblocks := hc.blocks
  have hsnoc : (blockSlots
      (es ++ [.system ctx (.onblock timestamp producer)])).length =
      (blockSlots es).length + 1 := by
    rw [blockSlots_snoc, List.length_append]
    rfl
  rcases h.counted with ⟨htotal, hunpaid⟩ | ⟨p, hp, htotal, hunpaid⟩
  · exact ⟨by rw [htotal, hunpaid, hc.counted], by omega⟩
  · have hle := hc.unpaid_le hp
    have hcounted := hc.counted
    constructor
    · rw [htotal, hunpaid, total_add, total_single, ← hcounted]
      unfold u32
      omega
    · rw [htotal]
      unfold u32
      omega

/-- An event that pays nobody counts at most one block. -/
theorem BlockCounts.quiet (hc : c.BlockCounts es) (h : Step env c e c')
    (hclaim : ¬ e.IsClaim) (hslots : (0 :: blockSlots (es ++ [e])).Nodup) :
    c'.BlockCounts (es ++ [e]) := by
  have hmore : (blockSlots es).length ≤ (blockSlots (es ++ [e])).length := by
    rw [blockSlots_snoc, List.length_append]
    omega
  have hblocks := hc.blocks
  rcases step_pay h with ⟨_, hsame⟩ | ⟨_, _, _, rfl, hblock⟩ |
    ⟨_, hunpaid, _, _, _, _, hpay⟩ | hpaid
  · exact ⟨by rw [hsame.pay, hsame.unpaid, hc.counted],
      by rw [hsame.pay]; omega⟩
  · exact hc.block hslots hblock
  · exact ⟨by rw [hpay, hunpaid, hc.counted],
      by rw [hpay]; exact hblocks.trans hmore⟩
  · exact absurd hpaid hclaim

/-- A claim takes its blocks off the row and off the total. -/
theorem BlockCounts.claim (hc : c.BlockCounts es) {ctx : Ctx} {owner : Name}
    {s : SysState} {p : System.Payout}
    (hlength : (blockSlots es).length < 2 ^ 32)
    (hpaid : System.PaidClaim ctx c.token owner p c.sys s) :
    p.filled.pay.totalUnpaidBlocks = c.sys.pay.totalUnpaidBlocks ∧
    p.prod.unpaidBlocks ≤ c.sys.pay.totalUnpaidBlocks ∧
    s.pay.totalUnpaidBlocks + p.prod.unpaidBlocks =
      c.sys.pay.totalUnpaidBlocks ∧
    (s.pay.totalUnpaidBlocks : ℤ) = total s.unpaid := by
  have hunpaid := hc.unpaid_le hpaid.row
  have htotal : p.filled.pay.totalUnpaidBlocks =
      c.sys.pay.totalUnpaidBlocks := by
    obtain ⟨_, _, _, hrest⟩ := hpaid.filled.rest
    rw [hrest]
  have hcounted := hc.counted
  have hblocks := hc.blocks
  have hleft : s.pay.totalUnpaidBlocks + p.prod.unpaidBlocks =
      c.sys.pay.totalUnpaidBlocks := by
    have hs := congrArg PayState.totalUnpaidBlocks hpaid.pay
    simp only [htotal, u32] at hs
    omega
  refine ⟨htotal, hunpaid, hleft, ?_⟩
  rw [hpaid.unpaid, total_sub, total_single]
  omega

theorem BlockCounts.step (hc : c.BlockCounts es)
    (hfactors : c.sys.pay.FactorsOk) (h : Step env c e c')
    (hslots : (0 :: blockSlots (es ++ [e])).Nodup) :
    c'.BlockCounts (es ++ [e]) := by
  by_cases hclaim : e.IsClaim
  · obtain ⟨ctx, owner, rfl⟩ := isClaim_iff.mp hclaim
    obtain ⟨s, hs, hsys⟩ := step_system h
    obtain ⟨p, hpaid⟩ := System.claimrewards_paid hfactors hs
    have hlength := length_blockSlots hslots
    rw [blockSlots_snoc, List.length_append] at hlength
    obtain ⟨_, _, htotal, hcounted⟩ := hc.claim (by omega) hpaid
    have hblocks := hc.blocks
    constructor
    · rw [hsys]
      exact hcounted
    · rw [hsys, blockSlots_snoc, List.length_append]
      show s.pay.totalUnpaidBlocks ≤ _
      omega
  · exact hc.quiet h hclaim hslots

theorem blockCounts_genesis (env : Env) : (genesis env).BlockCounts [] where
  counted := ((congrArg total (view_empty _)).trans total_zero).symm
  blocks := le_refl 0

end BlockCounts

/-- The block pay after the events: the total is the sum over the producers,
no more than there were blocks, and the bucket is backed. -/
structure BlockBooks (es : List Event) (c : Chain) : Prop where
  books : c.Books
  factors : c.sys.pay.FactorsOk
  counted : (c.sys.pay.totalUnpaidBlocks : ℤ) = total c.sys.unpaid
  blocks : c.sys.pay.totalUnpaidBlocks ≤ (blockSlots es).length
  bucket : 0 ≤ c.sys.pay.perblockBucket
  backed : c.sys.pay.perblockBucket ≤ c.liquid bpayAccount

section BlockBooks

variable {env : Env} {c c' : Chain} {es : List Event} {e : Event}

theorem BlockBooks.counts (hc : c.BlockBooks es) : c.BlockCounts es :=
  ⟨hc.counted, hc.blocks⟩

theorem BlockBooks.inRange (hc : c.BlockBooks es) :
    Asset.InRange c.sys.pay.perblockBucket := by
  have hmax := hc.books.liquid_le_max bpayAccount
  have hbucket := hc.bucket
  have hbacked := hc.backed
  unfold Asset.InRange Asset.maxAmount at *
  omega

/-- What a claim takes out of the bucket, and what it leaves. -/
theorem BlockBooks.claim (hc : c.BlockBooks es) {ctx : Ctx} {owner : Name}
    {s : SysState} {p : System.Payout}
    (hlength : (blockSlots es).length < 2 ^ 32)
    (hexact : (Event.system ctx (.claimrewards owner)).ExactPay c)
    (hpaid : System.PaidClaim ctx c.token owner p c.sys s) :
    p.filled.pay.perblockBucket =
      c.sys.pay.perblockBucket + p.forBlocks ∧
    0 ≤ p.perblock ∧ p.perblock ≤ p.filled.pay.perblockBucket ∧
    s.pay.perblockBucket = p.filled.pay.perblockBucket - p.perblock ∧
    p.prod.unpaidBlocks ≤ c.sys.pay.totalUnpaidBlocks ∧
    s.pay.totalUnpaidBlocks + p.prod.unpaidBlocks =
      c.sys.pay.totalUnpaidBlocks := by
  obtain ⟨hproduct, hdouble⟩ := hexact _ _ hpaid.fill hpaid.row
  have hbucket := hpaid.filled.perblock hc.inRange
  have hnonneg := hpaid.filled.perblock_nonneg
  have hold := hc.bucket
  obtain ⟨htotal, hunpaid, hleft, _⟩ := hc.counts.claim hlength hpaid
  obtain ⟨hpay, hpay'⟩ := System.blockPay_bounds (by omega)
    (htotal ▸ hunpaid) hproduct hdouble
  have hs := congrArg PayState.perblockBucket hpaid.pay
  exact ⟨hbucket, hpay, hpay', hs.trans (toDouble_sub hpay hpay' hdouble),
    hunpaid, hleft⟩

/-- A run in which every claim is exact and the paying account signs
nothing. -/
def PaysBlocks (_es : List Event) (c : Chain) (e : Event) : Prop :=
  e.ExactPay c ∧ ¬ e.TopLevelBy bpayAccount

theorem owner_ne_of_signs {ctx : Ctx} {a : SysAction} {owner k : Name}
    (hauth : ctx.HasAuth owner) (htop : ¬ (Event.system ctx a).TopLevelBy k) :
    owner ≠ k := by
  rintro rfl
  exact htop hauth

theorem BlockBooks.step (hc : c.BlockBooks es) (h : Step env c e c')
    (hslots : (0 :: blockSlots (es ++ [e])).Nodup) (hpays : PaysBlocks es c e) :
    c'.BlockBooks (es ++ [e]) := by
  obtain ⟨hexact, htop⟩ := hpays
  have hbacked := hc.backed
  obtain ⟨hcounted, hblocks⟩ := hc.counts.step hc.factors h hslots
  by_cases hclaim : e.IsClaim
  · obtain ⟨ctx, owner, rfl⟩ := isClaim_iff.mp hclaim
    obtain ⟨p, s, hsys, hpaid, hbpay, _⟩ := hc.books.claimed hc.factors h
    have hlength := length_blockSlots hslots
    rw [blockSlots_snoc, List.length_append] at hlength
    obtain ⟨hbucket, hpay, hpay', hleft, _⟩ :=
      hc.claim (by omega) hexact hpaid
    have hliquid := hbpay (owner_ne_of_signs hpaid.auth htop)
    have hpay₁ : c'.sys.pay = s.pay := by rw [hsys]
    obtain ⟨_, _, _, hrest⟩ := hpaid.filled.rest
    refine ⟨hc.books.step h, ?_, hcounted, hblocks, ?_, ?_⟩
    · rw [hpay₁, hpaid.pay, hrest]
      exact ⟨hc.factors.inflation, hc.factors.votepay⟩
    · rw [hpay₁]
      omega
    · rw [hpay₁]
      omega
  · obtain ⟨hfactors, hbucket, _⟩ := step_unclaimed h hclaim hc.factors
    have hliquid := hc.books.liquid_le h hclaim htop (by decide) (by decide)
    exact ⟨hc.books.step h, hfactors, hcounted, hblocks, hbucket ▸ hc.bucket,
      by omega⟩

theorem blockBooks_genesis (env : Env) : (genesis env).BlockBooks [] where
  books := books_genesis env
  factors := ⟨(by decide : payFactorPrecision ≤ defaultInflationPayFactor),
    (by decide : payFactorPrecision ≤ defaultVotepayFactor)⟩
  counted := (blockCounts_genesis env).counted
  blocks := le_refl 0
  bucket := le_refl 0
  backed := (books_genesis env).liquid_nonneg _

theorem blockBooks_run
    (hrun : RunWhile (Step env) PaysBlocks (.genesis env) es c)
    (hslots : (0 :: blockSlots es).Nodup) : c.BlockBooks es := by
  refine hrun.history (H := fun es c => (0 :: blockSlots es).Nodup →
    c.BlockBooks es) (fun _ => blockBooks_genesis env) ?_ hslots
  intro ds u e v hu hpays hstep hnodup
  refine (hu ?_).step hstep hnodup hpays
  rw [blockSlots_snoc, ← List.cons_append] at hnodup
  exact (List.nodup_append.mp hnodup).1

end BlockBooks

end Chain

/-- **The block pay is solvent** in every run with at most one block to a slot
and none in slot 0, with exact claims and in which the account that pays signs
nothing itself.  The total is the sum of the unpaid blocks over all rows; the
bucket is not negative and the paying account has it; and a claim subtracts no
more blocks than there are, pays a part of the bucket, and takes from the
account what it takes from the bucket. -/
theorem block_pay_solvent {env : Env} {es : List Event} {c : Chain}
    (hrun : RunWhile (Chain.Step env) Chain.PaysBlocks (.genesis env) es c)
    (hslots : (0 :: blockSlots es).Nodup) :
    c.sys.pay.totalUnpaidBlocks =
      (c.sys.election.producers.rows.map (·.unpaidBlocks)).sum ∧
    0 ≤ c.sys.pay.perblockBucket ∧
    c.sys.pay.perblockBucket ≤ c.liquid bpayAccount ∧
    ∀ ctx owner c', Chain.Step env c (.system ctx (.claimrewards owner)) c' →
      Chain.PaysBlocks es c (.system ctx (.claimrewards owner)) →
      ∃ filled prod, System.fillBuckets ctx c.token c.sys = .ok filled ∧
        c.sys.election.producers.find owner = some prod ∧
        prod.unpaidBlocks ≤ c.sys.pay.totalUnpaidBlocks ∧
        c'.sys.pay.totalUnpaidBlocks + prod.unpaidBlocks =
          c.sys.pay.totalUnpaidBlocks ∧
        0 ≤ filled.pay.blockPay prod.unpaidBlocks ∧
        filled.pay.blockPay prod.unpaidBlocks ≤ filled.pay.perblockBucket ∧
        c'.sys.pay.perblockBucket = filled.pay.perblockBucket -
          filled.pay.blockPay prod.unpaidBlocks ∧
        c'.liquid bpayAccount - c.liquid bpayAccount =
          c'.sys.pay.perblockBucket - c.sys.pay.perblockBucket := by
  have hc := Chain.blockBooks_run hrun hslots
  refine ⟨?_, hc.bucket, hc.backed, ?_⟩
  · have hcounted := hc.counted
    rw [SysState.unpaid, total_view] at hcounted
    have hcast : (c.sys.election.producers.rows.map
        (fun p => (p.unpaidBlocks : ℤ))).sum =
        ((c.sys.election.producers.rows.map (·.unpaidBlocks)).sum : ℕ) := by
      rw [Nat.cast_list_sum, List.map_map]
      rfl
    exact_mod_cast hcounted.trans hcast
  · intro ctx owner c' hstep hpays
    obtain ⟨p, s, hsys, hpaid, hbpay, _⟩ := hc.books.claimed hc.factors hstep
    obtain ⟨hbucket, hpay, hpay', hleft, hunpaid, htotal⟩ :=
      hc.claim (length_blockSlots hslots) hpays.1 hpaid
    have hliquid := hbpay (Chain.owner_ne_of_signs hpaid.auth hpays.2)
    have hpay₁ : c'.sys.pay = s.pay := by rw [hsys]
    rw [hpay₁]
    refine ⟨p.filled, p.prod, hpaid.fill, hpaid.row, hunpaid, htotal, hpay,
      hpay', hleft, ?_⟩
    omega

/-- Weights that do not grow, and an inflation of `log1p( 0.05 )`, the default
rate as the double it is stored in. -/
def payEnv : Env :=
  { sampleEnv with
    continuousRate := fun _ => 3515701842764789 / 72057594037927936 }

/-- The default inflation, and the rates of `log1p( 1.0 )` and `log1p( 100.0 )`
for an inflation of 100 % and of 10000 %, as the doubles they are stored in. -/
def steepEnv : Env :=
  { sampleEnv with
    continuousRate := fun annualRate =>
      if annualRate = 10000 then 6243314768165359 / 9007199254740992
      else if annualRate = 1000000 then 5196163759979057 / 1125899906842624
      else payEnv.continuousRate annualRate }

/-- The core token is created with a large supply, alice activates the chain,
and all inflation goes to the block pay. -/
def inflatedEvents (supply annualRate : ℤ) : List Event :=
  [.token (.signedBy tokenAccount 1)
      (.create systemAccount ⟨4 * 10 ^ 18, inrSymbol⟩),
    .token (.signedBy systemAccount 1)
      (.issue systemAccount ⟨supply, inrSymbol⟩ ""),
    .token (.signedBy systemAccount 1)
      (.transfer systemAccount alice ⟨2000000000, inrSymbol⟩ ""),
    .system (.signedBy systemAccount 1) (.init 0 inrSymbol),
    .system (.signedBy alice 2) (.regproducer alice {} "" 0),
    .system (.signedBy alice 2)
      (.delegatebw alice alice ⟨9000, inrSymbol⟩ ⟨3000, inrSymbol⟩ false),
    .system (.signedBy alice 3) (.makeprod alice .none [alice]),
    .system (.signedBy systemAccount 3) (.setinflation annualRate 10000 10000)]

/-- Alice activates the chain; then she produces two blocks and bob one. -/
def producingBlocks : List Event :=
  openingEvents ++
  [.system (.signedBy systemAccount 1) (.init 0 inrSymbol),
    .system (.signedBy alice 2) (.regproducer alice {} "" 0),
    .system (.signedBy bob 2) (.regproducer bob {} "" 0),
    .system (.signedBy alice 2)
      (.delegatebw alice alice ⟨9000, inrSymbol⟩ ⟨3000, inrSymbol⟩ false),
    .system (.signedBy alice 3) (.makeprod alice .none [alice]),
    .system (.signedBy systemAccount 4) (.onblock 4 alice),
    .system (.signedBy systemAccount 5) (.onblock 5 bob),
    .system (.signedBy systemAccount 6) (.onblock 6 alice)]

/-- Alice claims two thirds of the bucket. -/
theorem block_pay_solvent_sample : ∃ c c' : Chain,
    c.sys.pay.totalUnpaidBlocks = 3 ∧
    (c.sys.election.producers.rows.map (·.unpaidBlocks)).sum = 3 ∧
    c'.sys.pay.perblockBucket = 258558 ∧
    c'.liquid bpayAccount - c.liquid bpayAccount =
      c'.sys.pay.perblockBucket - c.sys.pay.perblockBucket := by
  have hsample : Finishes (producingBlocks.foldlM (Chain.exec payEnv)
      (.genesis payEnv)) (fun c => c.sys.pay.totalUnpaidBlocks = 3 ∧
        Finishes (System.fillBuckets (.signedBy alice 200000) c.token c.sys)
          (fun filled => (c.sys.election.producers.find alice).all (fun prod =>
            filled.pay.perblockBucket * prod.unpaidBlocks < 2 ^ 63 ∧
              filled.pay.perblockBucket < 2 ^ 53) = true) ∧
        Finishes (Chain.exec payEnv c
          (.system (.signedBy alice 200000) (.claimrewards alice)))
          (fun c' => c'.sys.pay.perblockBucket = 258558)) := by
    decide +kernel
  obtain ⟨c, hrun, htotal, ⟨filled, hfill, hall⟩, c', hstep, hbucket⟩ := hsample
  have hpays : ∀ ds u, ∀ e ∈ producingBlocks, Chain.PaysBlocks ds u e := by
    intro ds u e he
    simp only [producingBlocks, openingEvents, List.cons_append,
      List.nil_append, List.mem_cons, List.not_mem_nil, or_false] at he
    rcases he with rfl | rfl | rfl | rfl | rfl | rfl | rfl | rfl | rfl | rfl |
      rfl | rfl <;> exact ⟨trivial, by simp only [Event.TopLevelBy]; decide⟩
  have hclaim : Chain.PaysBlocks producingBlocks c
      (.system (.signedBy alice 200000) (.claimrewards alice)) := by
    refine ⟨fun filled' prod hfill' hprod => ?_, ?_⟩
    · cases Except.ok.inj (hfill.symm.trans hfill')
      simpa [hprod] using hall
    · simp only [Event.TopLevelBy]
      decide
  obtain ⟨hsum, _, _, hpay⟩ := block_pay_solvent
    ((Run.of_foldlM hrun).while hpays) (by decide)
  obtain ⟨_, _, _, _, _, _, _, _, _, hliquid⟩ := hpay _ _ c' hstep hclaim
  exact ⟨c, c', htotal, hsum ▸ htotal, hbucket, hliquid⟩

end Inery
