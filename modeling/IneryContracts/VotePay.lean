import IneryContracts.BlockPay
import IneryContracts.VoteLocking
import IneryContracts.VoteTally

/-!
# The vote pay is solvent

Before a revision of the pay, a claim takes the part of the bucket that the
votes of the producer are of the total.  The code does not cap that part, so
the bucket depends on the votes of no producer exceeding the total, which holds
as long as no change of weight is lost.  After a revision the part is capped.
-/

namespace Inery

open GuardedStep LedgerVector LabelledRun MachineInt

namespace Election

/-- What the tables count is not negative. -/
theorem Tally.votes_nonneg {e : Election} (h : e.Tally) (p : Name) :
    0 ≤ view ProducerInfo.totalVotes e.producers p :=
  h.counted_nonneg (.producer p)

/-- No producer has more votes than all of them. -/
theorem Tally.votes_le {e : Election} (h : e.Tally) {k : Name}
    {p : ProducerInfo} (hp : e.producers.find k = some p) :
    p.totalVotes ≤ e.totalProducerVoteWeight := by
  rw [sub_eq_zero.mp h.balance,
    ← view_of_find (f := ProducerInfo.totalVotes) hp]
  exact LedgerVector.le_total h.votes_nonneg k

end Election

/-- The pay per vote is a part of the bucket if the votes are a part of the
total. -/
theorem PayState.VotePay.le_bucket {p : PayState} {weight votes payV : ℚ}
    (h : p.VotePay weight votes payV) (hbucket : 0 ≤ p.pervoteBucket)
    (hvotes : p.revision = 0 → votes ≤ weight) : payV ≤ p.pervoteBucket := by
  have hbucket' : (0 : ℚ) ≤ p.pervoteBucket := by exact_mod_cast hbucket
  rcases h with rfl | ⟨_, ⟨_, hle⟩ | ⟨hrev, hweight, rfl⟩⟩
  · exact hbucket'
  · exact hle
  · rw [div_le_iff₀ hweight]
    exact mul_le_mul_of_nonneg_left (hvotes hrev) hbucket'

/-- What is left of a bucket is not negative, and no more than what its account
has left after it has paid whole tokens. -/
theorem truncate_left {b : ℤ} {x : ℚ} (hle : x ≤ b) :
    truncate (b - x) = ⌊b - x⌋ ∧ 0 ≤ ⌊b - x⌋ ∧ ⌊b - x⌋ ≤ b - ⌊x⌋ := by
  have hnonneg : 0 ≤ b - x := sub_nonneg.mpr hle
  refine ⟨truncate_of_nonneg hnonneg, Int.floor_nonneg.mpr hnonneg, ?_⟩
  have hfloor := Int.floor_le (b - x)
  have hpaid := Int.floor_le x
  have hsum : ((⌊b - x⌋ + ⌊x⌋ : ℤ) : ℚ) ≤ b := by
    push_cast
    linarith
  have hsum' : ⌊b - x⌋ + ⌊x⌋ ≤ b := by exact_mod_cast hsum
  omega

namespace Chain

/-- Both contracts before their first action, with some revision of the
pay. -/
def genesisAt (env : Env) (revision : UInt8) : Chain :=
  { genesis env with sys :=
      { SysState.genesis env with pay :=
          { (SysState.genesis env).pay with revision } } }

/-- The vote pay: the bucket is backed, and before a revision the votes are
counted right. -/
structure VoteBooks (c : Chain) : Prop where
  books : c.Books
  factors : c.sys.pay.FactorsOk
  tally : c.sys.pay.revision = 0 → c.sys.election.Tally
  bucket : 0 ≤ c.sys.pay.pervoteBucket
  backed : c.sys.pay.pervoteBucket ≤ c.liquid vpayAccount

/-- An event that succeeds and that the paying account does not sign; before a
revision it loses no change of weight. -/
def PaysVotes (env : Env) (c : Chain) (e : Event) (c' : Chain) : Prop :=
  Step env c e c' ∧ ¬ e.TopLevelBy vpayAccount ∧
    (c.sys.pay.revision = 0 → e.Passes env c.sys.election.voters)

variable {env : Env} {c c' : Chain} {e : Event}

/-- What a claim takes out of the bucket, and what it leaves. -/
theorem VoteBooks.claim (hc : c.VoteBooks) {ctx : Ctx} {owner : Name}
    (hstep : Step env c (.system ctx (.claimrewards owner)) c')
    (htop : ¬ (Event.system ctx (.claimrewards owner)).TopLevelBy
      vpayAccount) :
    ∃ filled : SysState, ∃ prod : ProducerInfo, ∃ payV : ℚ,
      System.fillBuckets ctx c.token c.sys = .ok filled ∧
      c.sys.election.producers.find owner = some prod ∧
      filled.pay.VotePay c.sys.election.totalProducerVoteWeight
        prod.totalVotes payV ∧
      0 ≤ payV ∧ payV ≤ filled.pay.pervoteBucket ∧
      c'.sys.pay.pervoteBucket = ⌊filled.pay.pervoteBucket - payV⌋ ∧
      c'.liquid vpayAccount - c.liquid vpayAccount =
        filled.pay.pervoteBucket - c.sys.pay.pervoteBucket - ⌊payV⌋ ∧
      c'.sys.pay.revision = c.sys.pay.revision ∧ c'.sys.pay.FactorsOk := by
  obtain ⟨p, s, hsys, hpaid, _, hvpay⟩ := hc.books.claimed hc.factors hstep
  have hrange : Asset.InRange c.sys.pay.pervoteBucket := by
    have hmax := hc.books.liquid_le_max vpayAccount
    have hbucket := hc.bucket
    have hbacked := hc.backed
    unfold Asset.InRange Asset.maxAmount at *
    omega
  have hbucket := hpaid.filled.pervote hrange
  have hnonneg := hpaid.filled.pervote_nonneg
  have hold := hc.bucket
  obtain ⟨_, _, _, hrest⟩ := hpaid.filled.rest
  have hrev : p.filled.pay.revision = c.sys.pay.revision := by rw [hrest]
  have hle := hpaid.votePay.le_bucket (by omega)
    (fun hzero => (hc.tally (hrev ▸ hzero)).votes_le hpaid.row)
  have hliquid := hvpay (owner_ne_of_signs hpaid.auth htop)
  refine ⟨p.filled, p.prod, p.pervote, hpaid.fill, hpaid.row, hpaid.votePay,
    hpaid.votePay.nonneg, hle, ?_, ?_, ?_, ?_⟩
  · rw [hsys, hpaid.pay]
    exact (truncate_left hle).1
  · omega
  · rw [hsys, hpaid.pay]
    exact hrev
  · rw [hsys, hpaid.pay, hrest]
    exact ⟨hc.factors.inflation, hc.factors.votepay⟩

theorem VoteBooks.step (hc : c.VoteBooks) (h : PaysVotes env c e c') :
    c'.VoteBooks := by
  obtain ⟨hstep, htop, hpass⟩ := h
  have hbacked := hc.backed
  have htally : c.sys.pay.revision = 0 → c'.sys.election.Tally := fun hzero =>
    CountedStep.tally ⟨hstep, hpass hzero⟩ (hc.tally hzero)
  by_cases hclaim : e.IsClaim
  · obtain ⟨ctx, owner, rfl⟩ := isClaim_iff.mp hclaim
    obtain ⟨filled, _, payV, _, _, _, _, hle, hleft, hliquid, hrev,
      hfactors⟩ := hc.claim hstep htop
    obtain ⟨_, hnonneg, hpaid⟩ := truncate_left hle
    exact ⟨hc.books.step hstep, hfactors, fun hzero => htally (hrev ▸ hzero),
      by omega, by omega⟩
  · obtain ⟨hfactors, _, hbucket, hrev⟩ :=
      step_unclaimed hstep hclaim hc.factors
    have hliquid := hc.books.liquid_le hstep hclaim htop (by decide) (by decide)
    exact ⟨hc.books.step hstep, hfactors, fun hzero => htally (hrev ▸ hzero),
      hbucket ▸ hc.bucket, by omega⟩

theorem voteBooks_genesis (env : Env) (revision : UInt8) :
    (genesisAt env revision).VoteBooks where
  books :=
    { toSettled := { settled_genesis env with }
      market := .inl ⟨rfl, rfl, rfl, rfl, rfl, fun _ => rfl, fun _ _ => rfl,
        fun _ => rfl⟩
      stakes := { (books_genesis env).stakes with } }
  factors := ⟨(by decide : payFactorPrecision ≤ defaultInflationPayFactor),
    (by decide : payFactorPrecision ≤ defaultVotepayFactor)⟩
  tally _ := tally_genesis env
  bucket := le_refl 0
  backed := (books_genesis env).liquid_nonneg _

end Chain

/-- **The vote pay is solvent** in every run in which the account that pays
signs nothing itself, from any revision on, and before a revision as long as no
change of weight is lost.  The bucket is not negative and the paying account
has it, and a claim pays a part of the bucket. -/
theorem vote_pay_solvent {env : Env} {revision : UInt8} {es : List Event}
    {c : Chain}
    (hrun : Run (Chain.PaysVotes env) (.genesisAt env revision) es c) :
    0 ≤ c.sys.pay.pervoteBucket ∧
    c.sys.pay.pervoteBucket ≤ c.liquid vpayAccount ∧
    ∀ ctx owner c', Chain.Step env c (.system ctx (.claimrewards owner)) c' →
      ¬ ctx.HasAuth vpayAccount → ∃ filled prod payV,
        System.fillBuckets ctx c.token c.sys = .ok filled ∧
        c.sys.election.producers.find owner = some prod ∧
        filled.pay.VotePay c.sys.election.totalProducerVoteWeight
          prod.totalVotes payV ∧
        0 ≤ payV ∧ payV ≤ filled.pay.pervoteBucket ∧
        c'.sys.pay.pervoteBucket = ⌊filled.pay.pervoteBucket - payV⌋ ∧
        c'.liquid vpayAccount - c.liquid vpayAccount =
          filled.pay.pervoteBucket - c.sys.pay.pervoteBucket - ⌊payV⌋ := by
  have hc : c.VoteBooks := hrun.invariant (fun _ => True)
    (fun _ _ _ _ hc h => hc.step h) (fun _ _ => trivial)
    (Chain.voteBooks_genesis env revision)
  refine ⟨hc.bucket, hc.backed, fun ctx owner c' hstep htop => ?_⟩
  obtain ⟨filled, prod, payV, hfill, hprod, hpay, hnonneg, hle, hleft, hliquid,
    _⟩ := hc.claim hstep htop
  exact ⟨filled, prod, payV, hfill, hprod, hpay, hnonneg, hle, hleft, hliquid⟩

/-- Alice registers as a producer. -/
def registeringEvents : List Event :=
  openingEvents ++
  [.system (.signedBy systemAccount 1) (.init 0 inrSymbol),
    .system (.signedBy alice 2) (.regproducer alice {} "" 0)]

/-- Alice, who has all the votes, is paid the whole bucket. -/
theorem vote_pay_solvent_sample : ∃ (c c' : Chain) (filled : SysState)
    (payV : ℚ), filled.pay.pervoteBucket = 2327018 ∧ payV ≤ 2327018 ∧
    c'.sys.pay.pervoteBucket = 0 ∧
    c'.liquid vpayAccount - c.liquid vpayAccount =
      filled.pay.pervoteBucket - c.sys.pay.pervoteBucket - ⌊payV⌋ := by
  have hsample : Finishes (registeringEvents.foldlM (Chain.exec payEnv)
      (.genesisAt payEnv 0)) (fun c =>
        c.sys.election.voters.find alice = none ∧
        Finishes (Chain.exec payEnv c (.system (.signedBy alice 2)
          (.delegatebw alice alice ⟨9000, inrSymbol⟩ ⟨3000, inrSymbol⟩ false)))
      (fun c => c.sys.election.voters.find alice =
          some { owner := alice, staked := 12000 } ∧
        Finishes (Chain.exec payEnv c
          (.system (.signedBy alice 3) (.makeprod alice .none [alice])))
      (fun c => Finishes (Chain.exec payEnv c
          (.system (.signedBy systemAccount 4) (.onblock 4 bob)))
      (fun c => Finishes (System.fillBuckets (.signedBy alice 200000) c.token
          c.sys) (fun filled => filled.pay.pervoteBucket = 2327018) ∧
        Finishes (Chain.exec payEnv c
          (.system (.signedBy alice 200000) (.claimrewards alice)))
      (fun c => c.sys.pay.pervoteBucket = 0))))) := by
    decide +kernel
  obtain ⟨c₁, hopen, hnone, c₂, hstake, hrow, c₃, hvote, c₄, hblock,
    ⟨filled, hfill, hbucket⟩, c₅, hclaim, hleft⟩ := hsample
  have hplain : ∀ c e c', e ∈ registeringEvents →
      Chain.Step payEnv c e c' → Chain.PaysVotes payEnv c e c' := by
    intro c e c' he hstep
    simp only [registeringEvents, openingEvents, List.cons_append,
      List.nil_append, List.mem_cons, List.not_mem_nil, or_false] at he
    rcases he with rfl | rfl | rfl | rfl | rfl | rfl <;>
      exact ⟨hstep, by simp only [Event.TopLevelBy]; decide, fun _ => trivial⟩
  have hopened := (Run.of_foldlM hopen).mono _ hplain (fun _ he => he)
  have hsigned : ∀ slot, ¬ (Ctx.signedBy alice slot).HasAuth vpayAccount := by
    rintro slot ⟨level, hlevel, hactor⟩
    rw [List.mem_singleton.mp hlevel] at hactor
    revert hactor
    decide
  have hstaked := hopened.snoc ⟨hstake, hsigned 2,
    fun _ v hv => by cases hnone.symm.trans hv⟩
  have hvoted := hstaked.snoc ⟨hvote, hsigned 3, fun _ =>
    ⟨fun v hv hlast => by
      cases hrow.symm.trans hv
      exact absurd hlast (lt_irrefl 0),
    fun hproxy => absurd rfl hproxy⟩⟩
  have hrun := hvoted.snoc ⟨hblock,
    by simp only [Event.TopLevelBy]; decide, fun _ => trivial⟩
  obtain ⟨filled', prod, payV, hfill', _, _, _, hle, _, hliquid⟩ :=
    (vote_pay_solvent hrun).2.2 _ _ c₅ hclaim (hsigned _)
  cases Except.ok.inj (hfill.symm.trans hfill')
  rw [hbucket] at hle
  exact ⟨c₄, c₅, filled, payV, hbucket, by exact_mod_cast hle, hleft, hliquid⟩

/-- Weights that double after a year, and the default inflation. -/
def payYearEnv : Env :=
  { yearEnv with continuousRate := payEnv.continuousRate }

/-- Alice and bob vote for themselves, bob as a proxy.  A year later bob, who
has a weight of 1 among the votes, is re-weighed to 2 without telling them, and
takes back his vote.  The account that pays has some tokens of its own. -/
def overdrawingEvents : List Event :=
  openingEvents ++
  [.token (.signedBy systemAccount 1)
      (.transfer systemAccount vpayAccount ⟨1000000000, inrSymbol⟩ ""),
    .system (.signedBy systemAccount 1) (.init 0 inrSymbol),
    .system (.signedBy alice 2) (.regproducer alice {} "" 0),
    .system (.signedBy bob 2) (.regproducer bob {} "" 0),
    .system (.signedBy alice 2)
      (.delegatebw alice alice ⟨9000, inrSymbol⟩ ⟨1000, inrSymbol⟩ false),
    .system (.signedBy bob 2)
      (.delegatebw bob bob ⟨1, inrSymbol⟩ ⟨0, inrSymbol⟩ false),
    .system (.signedBy alice 3) (.makeprod alice .none [alice]),
    .system (.signedBy bob 3) (.regproxy bob true),
    .system (.signedBy bob 3) (.makeprod bob .none [bob]),
    .system (.signedBy systemAccount 4) (.onblock 4 .none),
    .system (.signedBy bob 62899200) (.regproxy bob false),
    .system (.signedBy bob 62899200) (.makeprod bob .none [])]

/-- 2 have been taken off the total and 1, which was all there was, off the
votes of bob.  Alice, with one vote more than the total, claims more than there
is in the bucket. -/
theorem vote_pay_overdrawn : ∃ c c' : Chain,
    Run (Chain.Step payYearEnv) (.genesis payYearEnv) overdrawingEvents c ∧
    (∀ e ∈ overdrawingEvents, ¬ e.TopLevelBy vpayAccount) ∧
    view ProducerInfo.totalVotes c.sys.election.producers alice = 10000 ∧
    c.sys.election.totalProducerVoteWeight = 9999 ∧
    Chain.Step payYearEnv c
      (.system (.signedBy alice 62899201) (.claimrewards alice)) c' ∧
    c'.sys.pay.pervoteBucket < 0 := by
  have hsample : Finishes (overdrawingEvents.foldlM (Chain.exec payYearEnv)
      (.genesis payYearEnv)) (fun c =>
        view ProducerInfo.totalVotes c.sys.election.producers alice = 10000 ∧
        c.sys.election.totalProducerVoteWeight = 9999 ∧
        Finishes (Chain.exec payYearEnv c
          (.system (.signedBy alice 62899201) (.claimrewards alice)))
          (fun c' => c'.sys.pay.pervoteBucket < 0)) := by
    decide +kernel
  obtain ⟨c, hrun, hvotes, hweight, c', hstep, hbucket⟩ := hsample
  refine ⟨c, c', Run.of_foldlM hrun, ?_, hvotes, hweight, hstep, hbucket⟩
  simp only [overdrawingEvents, openingEvents, List.cons_append,
    List.nil_append, List.forall_mem_cons, List.not_mem_nil,
    IsEmpty.forall_iff, implies_true, and_true, Event.TopLevelBy]
  decide

end Inery
