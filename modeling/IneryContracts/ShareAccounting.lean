import IneryContracts.HostFrames
import IneryContracts.VotePay
import IneryContracts.VoteShares

/-!
# The books of the vote pay

Every action keeps the total share of the vote pay in line with the shares of
the producers, whenever it runs: the actions that vote through their loops,
registration by starting a producer with no votes, and a claim by taking the
share of one producer out of both.  What it takes is that no change of votes
leaves a producer with less than none.
-/

namespace Inery

open GuardedStep LedgerVector LabelledRun LazyAccrual

/-- What the share of a producer depends on. -/
def ProducerInfo.earning (p : ProducerInfo) : ℚ × ℤ :=
  (p.totalVotes, p.lastClaimTime)

theorem ProducerInfo.of_earning {p q : ProducerInfo}
    (h : p.earning = q.earning) :
    p.totalVotes = q.totalVotes ∧ p.lastClaimTime = q.lastClaimTime :=
  ⟨congrArg Prod.fst h, congrArg Prod.snd h⟩

theorem ProducerInfo.accrual_congr {p q : ProducerInfo} {p2 : ProducerInfo2}
    (h : q.earning = p.earning) :
    (q.Counted p2 ↔ p.Counted p2) ∧ q.accrual p2 = p.accrual p2 := by
  obtain ⟨hvotes, hclaim⟩ := ProducerInfo.of_earning h
  have hcounted : q.Counted p2 ↔ p.Counted p2 := by
    unfold Counted
    rw [hclaim]
  refine ⟨hcounted, ?_⟩
  by_cases hp : p.Counted p2
  · rw [accrual_of_counted hp, accrual_of_counted (hcounted.mpr hp), hvotes]
  · rw [accrual_of_not hp, accrual_of_not (mt hcounted.mp hp)]

namespace Election

section Rows

variable {now ct : ℤ} {e e' : Election}

/-- Writing what no share depends on keeps the books. -/
theorem ShareBooks.producers {producers : KeyedTable ProducerInfo.owner}
    (h : ShareBooks now e)
    (hsame : SameBy ProducerInfo.earning e.producers producers) :
    ShareBooks now { e with producers } := by
  refine ⟨⟨fun k q hq => ?_, h.past⟩, ?_⟩
  · obtain ⟨p, hp, hpq⟩ := hsame.find hq
    obtain ⟨hvotes, hclaim⟩ := ProducerInfo.of_earning hpq
    obtain ⟨p2, hp2, hrow⟩ := h.rows k p hp
    refine ⟨p2, hp2, hvotes ▸ hrow.votes, hclaim ▸ hrow.claimed, hrow.share,
      hrow.past, fun hnot => hrow.idle ?_⟩
    exact mt (ProducerInfo.accrual_congr hpq).1.mpr hnot
  · rw [show totalAccrual { e with producers } = e.totalAccrual from rfl,
      ← h.balance]
    congr 1
    funext k
    cases hq : producers.find k with
    | none =>
        have hp : e.producers.find k = none := by
          simpa [hq] using (hsame k).symm
        rw [accruals_of_none hp, accruals_of_none hq]
    | some q =>
        obtain ⟨p, hp, hpq⟩ := hsame.find hq
        obtain ⟨p2, hp2, _⟩ := h.rows k p hp
        have hafter : accruals { e with producers } k = q.accrual p2 :=
          accruals_of_find hq hp2
        rw [hafter, accruals_of_find hp hp2]
        exact (ProducerInfo.accrual_congr hpq).2

/-- A new producer has neither votes nor a share. -/
theorem ShareBooks.fresh {k : Name} {p : ProducerInfo} {p2 : ProducerInfo2}
    (h : ShareBooks ct e) (hnone : e.producers.find k = none)
    (hk : p.owner = k) (hk2 : p2.owner = k) (hvotes : p.totalVotes = 0)
    (hclaim : p.lastClaimTime = ct) (hshare : p2.votepayShare = 0)
    (hupdate : p2.lastVotepayShareUpdate = ct) (hpos : 0 < ct) :
    ShareBooks ct { e with
      producers := e.producers.put p
      producers2 := e.producers2.put p2 } := by
  have ht : Touches k p p2 e { e with
      producers := e.producers.put p
      producers2 := e.producers2.put p2 } := by
    refine ⟨?_, ?_, fun j hj => ⟨?_, ?_⟩, rfl⟩
    · rw [KeyedTable.find_put_of_key hk, if_pos rfl]
    · rw [KeyedTable.find_put_of_key hk2, if_pos rfl]
    · rw [KeyedTable.find_put_of_key hk, if_neg hj]
    · rw [KeyedTable.find_put_of_key hk2, if_neg hj]
  have hrow : ShareRow ct p p2 :=
    ⟨hvotes.ge, hclaim ▸ hpos, hshare.ge, hupdate.le, fun _ => hshare⟩
  refine ⟨ht.rows h.toShareRows hrow, ?_⟩
  have hline : p.accrual p2 = 0 := by
    unfold ProducerInfo.accrual
    rw [hvotes, hshare, accrual_zero, ite_self]
  rw [ht.total, hline, accruals_of_none hnone, sub_zero, add_zero, h.balance]
  rfl

/-- Bringing the total up to date leaves a loop where it is. -/
theorem SharesOpen.touchTotal {l : VoteLoop} (hl : SharesOpen ct l)
    (hshare : 0 ≤ amountAt l.election.totalAccrual (seconds ct))
    (hrate : 0 ≤ l.election.totalAccrual.2) :
    SharesOpen ct { l with
      election := l.election.updateTotalVotepayShare ct 0 0 } := by
  have hline : l.election.totalAccrual + accrual 0 0 (seconds ct) =
      l.election.totalAccrual := by
    rw [accrual_zero, add_zero]
  refine ⟨⟨hl.rows, le_refl ct⟩, ?_⟩
  dsimp only
  rw [totalAccrual_update hl.past (by rwa [hline]) (by rwa [hline]), hline]
  exact hl.balance

/-- A claim takes the share of a producer out and starts counting it, if it was
not counted. -/
theorem ShareBooks.claim {k : Name} {p q : ProducerInfo} {p2 : ProducerInfo2}
    {after : Bool} {share : ℚ} (he : ShareBooks ct e)
    (hp : e.producers.find k = some p) (hp2 : e.producers2.find k = some p2)
    (hpos : 0 < ct) (hq : q.owner = k) (hvotes : q.totalVotes = p.totalVotes)
    (hclaim : q.lastClaimTime = ct) (hafter : after = decide
      (p.lastClaimTime + 3 * usecondsPerDay ≤ p2.lastVotepayShareUpdate))
    (hshare : share = p2.votepayShare +
      (if (if after then 0 else p.totalVotes) > 0 ∧
          ct > p2.lastVotepayShareUpdate then
        (if after then 0 else p.totalVotes) *
          ((ct - p2.lastVotepayShareUpdate : ℤ) / 1000000) else 0)) :
    SharesOpen ct ⟨{ e with
      producers := e.producers.put q
      producers2 := e.producers2.put
        { p2 with votepayShare := 0, lastVotepayShareUpdate := ct } },
      if after then p.totalVotes else 0, share⟩ := by
  obtain ⟨_, hfind, hrow⟩ := he.rows k p hp
  cases hp2.symm.trans hfind
  have hk2 : p2.owner = k := KeyedTable.key_of_find hp2
  have hq2 : ({ p2 with
    votepayShare := 0, lastVotepayShareUpdate := ct } :
    ProducerInfo2).owner = k := hk2
  have hnow : q.Counted
      { p2 with votepayShare := 0, lastVotepayShareUpdate := ct } := by
    unfold ProducerInfo.Counted
    rw [hclaim]
    exact lt_add_of_pos_right ct (by decide)
  have hnew : ShareRow ct q
      { p2 with votepayShare := 0, lastVotepayShareUpdate := ct } :=
    ⟨hvotes ▸ hrow.votes, hclaim ▸ hpos, le_refl 0, le_refl ct,
      fun hnot => absurd hnow hnot⟩
  refine he.start.touch (k := k) (p := q) ⟨?_, ?_, fun j hj => ⟨?_, ?_⟩, rfl⟩
    hnew rfl ?_
  · rw [KeyedTable.find_put_of_key hq, if_pos rfl]
  · rw [KeyedTable.find_put_of_key hq2, if_pos rfl]
  · rw [KeyedTable.find_put_of_key hq, if_neg hj]
  · rw [KeyedTable.find_put_of_key hq2, if_neg hj]
  · rw [ProducerInfo.accrual_of_counted hnow, accruals_of_find hp hp2, hvotes]
    cases after with
    | true =>
        -- not counted before, so there was no share
        have hnot : ¬ p.Counted p2 :=
          not_lt.mpr (of_decide_eq_true hafter.symm)
        have hzero : share = 0 := by
          rw [hshare, hrow.idle hnot]
          simp
        rw [ProducerInfo.accrual_of_not hnot, hzero]
        simp
    | false =>
        have hcounted : p.Counted p2 :=
          not_le.mp (of_decide_eq_false hafter.symm)
        have hgrown : share = p2.votepayShare + p.totalVotes *
            (seconds ct - seconds p2.lastVotepayShareUpdate) := by
          rw [hshare, ← settled_share hrow]
          rfl
        rw [ProducerInfo.accrual_of_counted hcounted,
          ← accrual_settle p2.votepayShare _ _ (seconds ct), ← hgrown,
          accrual_add]
        simp

end Rows

end Election

namespace System

open Election

variable {env : Env} {ctx : Ctx} {t : TokenState} {s s' : SysState}

theorem currentTimePoint_pos (ctx : Ctx) : 0 < ctx.currentTimePoint := by
  unfold Ctx.currentTimePoint
  omega

/-- Registration starts a producer with no votes, or leaves votes and claims as
they are. -/
private theorem registerRows_shares {e e' : Election} {producer : Name}
    {auth : BlockSigningAuthority} {url : String} {location : UInt16}
    (he : ShareBooks ctx.currentTimePoint e)
    (h : registerRows ctx e producer auth url location = .ok e') :
    ShareBooks ctx.currentTimePoint e' := by
  unfold registerRows at h
  dsimp only at h
  split at h
  · simp only [bind_eq_ok, modify_eq_ok] at h
    obtain ⟨_, ⟨r, hr, hk, rfl⟩, h⟩ := h
    obtain ⟨p2, hp2, hrow⟩ := he.rows producer r hr
    rw [hp2] at h
    cases h
    refine he.producers (.put hr hk ?_)
    simp [ProducerInfo.earning, hrow.claimed.ne']
  · next hnone =>
      simp only [bind_eq_ok, emplace_eq_ok, pure_eq_ok] at h
      obtain ⟨_, ⟨_, rfl⟩, _, ⟨_, rfl⟩, rfl⟩ := h
      exact he.fresh hnone rfl rfl rfl rfl rfl rfl (currentTimePoint_pos ctx)

/-- A claim takes the share of the producer out of its row and out of the
total. -/
private theorem claimrewards_shares {owner : Name}
    (hs : ShareBooks ctx.currentTimePoint s.election)
    (h : claimrewards ctx t s owner = .ok s') :
    ShareBooks ctx.currentTimePoint s'.election := by
  simp only [claimrewards, bind_eq_ok, tableGet_eq_ok, modify_eq_ok,
    pure_eq_ok] at h
  obtain ⟨_, _, prod, hprod, _, _, _, _, s₁, hfill, _, _, r₁, hprod2, r₂,
    hshare, _, _, _, _, _, ⟨p, hp, hk, rfl⟩, s₂, hpay₁, s₃, hpay₂, _,
    ⟨p', hp', hk', rfl⟩, rfl⟩ := h
  obtain ⟨pay, outbox, rfl⟩ := fillBuckets_paysOnly hfill
  obtain ⟨_, _, hs₃⟩ :=
    (sendPay_paysOnly hpay₁).trans (sendPay_paysOnly hpay₂)
  dsimp only at hprod2
  obtain ⟨p2, hp2, hrow⟩ := hs.rows owner prod hprod
  -- the row of shares exists, so it is not created
  unfold claimedProd2 at hprod2
  rw [hp2] at hprod2
  cases hprod2
  obtain ⟨hshared, hr₂⟩ := updateProducerVotepayShare_ok
    (by rw [KeyedTable.key_of_find hp2]; exact hp2) hshare
  have helection := congrArg SysState.election hs₃
  dsimp only at helection hp hr₂
  clear hpay₁ hpay₂ hs₃ hfill hshare
  generalize r₂.2 = share at *
  generalize r₂.1 = e₂ at *
  subst hr₂
  have hproducers : p = prod := by
    split at hp
    · exact Option.some.inj (hp.symm.trans hprod)
    · exact Option.some.inj (hp.symm.trans hprod)
  subst hproducers
  have hopen := hs.claim (q := { p with
    lastClaimTime := ctx.currentTimePoint, unpaidBlocks := 0 }) hprod hp2
    (currentTimePoint_pos ctx) hk rfl rfl rfl hshared
  obtain ⟨hnonneg, hrate⟩ := hs.total_nonneg
  rw [hs.balance] at hnonneg hrate
  have hclosed : ShareBooks ctx.currentTimePoint s₃.election := by
    rw [helection]
    by_cases hrev : pay.revision > 0
    · rw [if_pos hrev]
      exact (hopen.touchTotal hnonneg hrate).close
    · rw [if_neg hrev]
      exact hopen.close
  exact hclosed.producers (.put hp' hk' rfl)

end System

/-- On the way from `e` to `e'` the action takes the votes of no producer below
zero. -/
def SysAction.StaysAbove (env : Env) (ctx : Ctx) (e e' : Election) :
    SysAction → Prop
  | delegatebw from' receiver _ _ transfer =>
      Election.StakesAbove env ctx (if transfer then receiver else from') e e'
  | undelegatebw from' _ _ _ => Election.StakesAbove env ctx from' e e'
  | buyresources payer _ _ => Election.StakesAbove env ctx payer e e'
  | buymembytes payer _ _ => ∃ e₁, Election.StakesAbove env ctx payer e e₁ ∧
      Election.StakesAbove env ctx payer e₁ e'
  | sellres account _ => Election.StakesAbove env ctx account e e'
  | makeprod voter proxy producers =>
      ∀ prods, modify e.producers voter (fun info =>
          { info with isProducer := true }) = .ok prods →
        Election.VotesAbove env ctx { e with producers := prods } voter proxy
          producers true
  | regproxy proxy isproxy =>
      ∀ voters, modify e.voters proxy (fun p =>
          { p with isProxy := isproxy }) = .ok voters →
        Election.PropagatesAbove env ctx { e with voters } proxy
  | _ => True

namespace System

open Election

variable {env : Env} {ctx : Ctx} {t : TokenState} {s s' : SysState}

private theorem onblock_shares {timestamp : UInt32} {producer : Name}
    (hs : ShareBooks ctx.currentTimePoint s.election)
    (h : onblock ctx s timestamp producer = .ok s') :
    ShareBooks ctx.currentTimePoint s'.election := by
  simp only [onblock, bind_eq_ok] at h
  obtain ⟨_, _, h⟩ := h
  split at h
  · cases h
    exact hs
  · simp only [bind_eq_ok] at h
    obtain ⟨s₁, hcount, h⟩ := h
    have hcounted : ShareBooks ctx.currentTimePoint s₁.election := by
      unfold countBlock at hcount
      split at hcount
      · simp only [bind_eq_ok, modify_eq_ok, pure_eq_ok] at hcount
        obtain ⟨_, ⟨p, hp, hk, rfl⟩, rfl⟩ := hcount
        exact hs.producers (.put hp hk rfl)
      · cases hcount
        exact hs
    split at h
    · cases h
      unfold updateElectedProducers
      dsimp only
      split
      · exact hcounted
      · exact hcounted
    · cases h
      exact hcounted

/-- **Every action keeps the books.** -/
theorem apply_shares {a : SysAction}
    (hs : ShareBooks ctx.currentTimePoint s.election)
    (h : apply env ctx t s a = .ok s')
    (habove : a.StaysAbove env ctx s.election s'.election) :
    ShareBooks ctx.currentTimePoint s'.election := by
  have hoff : a.OffElection →
      ShareBooks ctx.currentTimePoint s'.election := by
    intro ha
    rw [(apply_offElection ha h).1.election]
    exact hs
  -- a flag of an account is not a matter of the books
  have hlimit : ∀ k, a.SetsOneLimit k →
      ShareBooks ctx.currentTimePoint s'.election := by
    intro k hk
    obtain ⟨_, _, election, _, hflag, rfl⟩ := apply_setsOneLimit hk h
    change ShareBooks ctx.currentTimePoint election
    obtain ⟨_, ⟨_, _, _, rfl⟩ | ⟨_, rfl⟩⟩ := setManaged_row hflag
    · exact hs.voters _
    · exact hs.voters _
  cases a with
  | delegatebw from' receiver net cpu transfer => exact habove.shares hs
  | undelegatebw from' receiver net cpu => exact habove.shares hs
  | buyresources payer receiver quant => exact habove.shares hs
  | buymembytes payer receiver bytes =>
      obtain ⟨e₁, h₁, h₂⟩ := habove
      exact h₂.shares (h₁.shares hs)
  | sellres account bytes => exact habove.shares hs
  | makeprod voter proxy producers =>
      obtain ⟨_, _, row, election, _, _, hrow, hvotes, rfl, _, _, hk⟩ :=
        makeprod_ok h
      have hmarked : modify s.election.producers voter (fun info =>
          { info with isProducer := true }) = .ok (s.election.producers.put
            { row with isProducer := true }) :=
        modify_eq_ok.mpr ⟨row, hrow, hk, rfl⟩
      have hsame : SameBy ProducerInfo.earning s.election.producers
        (s.election.producers.put { row with isProducer := true }) :=
        .put hrow hk rfl
      exact updateVotes_shares (hs.producers hsame) (habove _ hmarked) hvotes
  | regproxy proxy isproxy =>
      simp only [apply, System.regproxy, bind_eq_ok, pure_eq_ok] at h
      obtain ⟨election, hreg, rfl⟩ := h
      exact regproxy_shares hs habove hreg
  | regproducer producer key url location =>
      simp only [apply, regproducer, bind_eq_ok] at h
      obtain ⟨_, _, _, _, h⟩ := h
      obtain ⟨_, _, hrows, _, _, rfl⟩ := registerProducer_ok h
      exact registerRows_shares hs hrows
  | regproducer2 producer auth url location =>
      simp only [apply, regproducer2, bind_eq_ok] at h
      obtain ⟨_, _, _, _, _, _, h⟩ := h
      obtain ⟨_, _, hrows, _, _, rfl⟩ := registerProducer_ok h
      exact registerRows_shares hs hrows
  | unregprod producer =>
      simp only [apply, unregprod, bind_eq_ok, modify_eq_ok] at h
      obtain ⟨_, _, _, _, _, ⟨old, hold, hk, rfl⟩, h⟩ := h
      have hretired := hs.producers (.put hold hk rfl)
      split at h
      · simp only [bind_eq_ok, pure_eq_ok] at h
        obtain ⟨_, _, rfl⟩ := h
        exact hretired
      · cases h
        exact hretired
  | rmvproducer producer =>
      simp only [apply, rmvproducer, bind_eq_ok, modify_eq_ok, pure_eq_ok] at h
      obtain ⟨_, _, _, _, _, ⟨old, hold, hk, rfl⟩, rfl⟩ := h
      exact hs.producers (.put hold hk rfl)
  | claimrewards owner => exact claimrewards_shares hs h
  | onblock timestamp producer => exact onblock_shares hs h
  | setacctmem account limit => exact hlimit account rfl
  | setacctnet account limit => exact hlimit account rfl
  | setacctcpu account limit => exact hlimit account rfl
  | _ => exact hoff trivial

end System

namespace Chain

open Election

variable {env : Env} {c c' : Chain} {e : Event}

/-- An event that succeeds and takes the votes of no producer below zero. -/
def StepAbove (env : Env) (c : Chain) (e : Event) (c' : Chain) : Prop :=
  Step env c e c' ∧ ∀ ctx a, e = .system ctx a →
    a.StaysAbove env ctx c.sys.election c'.sys.election

/-- The books are in order at the time of the last block and from then on. -/
def KeepsShares (c : Chain) : Prop :=
  ∀ ctx : Ctx, c.slot ≤ ctx.slot →
    ShareBooks ctx.currentTimePoint c.sys.election

theorem KeepsShares.step (hc : c.KeepsShares) (h : StepAbove env c e c') :
    c'.KeepsShares := by
  obtain ⟨hstep, habove⟩ := h
  obtain ⟨hslot, hslot', hcases⟩ := step_cases hstep
  have hnow : ShareBooks e.ctx.currentTimePoint c'.sys.election := by
    have hs := hc e.ctx hslot
    rcases hcases with ⟨_, _, rfl, hsys, _⟩ |
      ⟨ctx, a, s, rfl, happly, _, hsys⟩ |
      ⟨slot, isAccount, owner, rfl, ⟨s, happly, _, hsys⟩ | ⟨_, hsys⟩⟩
    · rw [hsys]
      exact hs
    · have ha := habove ctx a rfl
      rw [hsys] at ha ⊢
      have hkept := System.apply_shares hs happly ha
      exact hkept
    · obtain ⟨_, _, _, _, _, rfl⟩ := System.refund_ok happly
      rw [hsys]
      exact hs
    · rw [hsys]
      exact hs
  intro ctx hctx
  have hlater := Ctx.currentTimePoint_mono (hslot' ▸ hctx)
  exact ⟨hnow.toShareRows.later hlater, hnow.balance⟩

theorem keepsShares_genesis (env : Env) (revision : UInt8) :
    (genesisAt env revision).KeepsShares := by
  intro ctx _
  have hempty : ∀ k, (genesisAt env revision).sys.election.producers.find k =
      none := fun _ => rfl
  refine ⟨⟨fun k p hp => ?_, (System.currentTimePoint_pos ctx).le⟩, ?_⟩
  · rw [hempty k] at hp
    cases hp
  have hnone : (genesisAt env revision).sys.election.accruals = 0 := by
    funext k
    exact accruals_of_none (hempty k)
  rw [hnone, total_zero]
  exact (accrual_zero _).symm

end Chain

/-! ## The books in the words of the tables -/

namespace Election

/-- The producer has a row of shares and is counted. -/
def IsCounted (e : Election) (p : ProducerInfo) : Prop :=
  ∃ p2, e.producers2.find p.owner = some p2 ∧ p.Counted p2

instance (e : Election) : DecidablePred e.IsCounted := fun p =>
  decidable_of_iff ((e.producers2.find p.owner).any (fun p2 => p.Counted p2))
    (by simp [IsCounted, Option.any_eq_true])

/-- What a producer has earned at a time. -/
def earned (e : Election) (t : ℤ) (p : ProducerInfo) : ℚ :=
  match e.producers2.find p.owner with
  | some p2 => p2.votepayShare +
      p.totalVotes * ((t - p2.lastVotepayShareUpdate : ℤ) / 1000000)
  | none => 0

/-- The total share and its rate are those of the producers that are counted,
and only these have a share. -/
structure SharesAccounted (e : Election) : Prop where
  rate : e.totalVpayShareChangeRate =
    ((e.producers.rows.filter e.IsCounted).map (·.totalVotes)).sum
  idle : ∀ k p p2, e.producers.find k = some p →
    e.producers2.find k = some p2 → ¬ p.Counted p2 → p2.votepayShare = 0
  share : ∀ t : ℤ, e.lastVpayStateUpdate ≤ t →
    e.totalProducerVotepayShare + e.totalVpayShareChangeRate *
        ((t - e.lastVpayStateUpdate : ℤ) / 1000000) =
      ((e.producers.rows.filter e.IsCounted).map (e.earned t)).sum

private theorem sum_filter {α : Type} (l : List α) (P : α → Prop)
    [DecidablePred P] (f : α → ℚ) :
    ((l.filter P).map f).sum =
      (l.map (fun a => if P a then f a else 0)).sum := by
  induction l with
  | nil => rfl
  | cons a l ih =>
      by_cases ha : P a
      · simp [ha, ih]
      · simp [ha, ih]

/-- Where a producer is counted, its line is what it has earned. -/
private theorem accruals_eq {now : ℤ} {e : Election} (h : ShareRows now e)
    (k : Name) : (e.accruals k).2 = view (fun p =>
        if e.IsCounted p then p.totalVotes else 0) e.producers k ∧
      ∀ t : ℤ, amountAt (e.accruals k) (seconds t) = view (fun p =>
        if e.IsCounted p then e.earned t p else 0) e.producers k := by
  cases hp : e.producers.find k with
  | none =>
      rw [accruals_of_none hp, view_of_none hp]
      refine ⟨rfl, fun t => ?_⟩
      rw [amountAt_zero, view_of_none hp]
  | some p =>
      obtain ⟨p2, hp2, _⟩ := h.rows k p hp
      have hk := KeyedTable.key_of_find hp
      have hcounted : e.IsCounted p ↔ p.Counted p2 := by
        unfold IsCounted
        rw [hk, hp2]
        simp
      rw [accruals_of_find hp hp2, view_of_find hp]
      refine ⟨?_, fun t => ?_⟩
      · by_cases hc : p.Counted p2
        · rw [if_pos (hcounted.mpr hc), ProducerInfo.accrual_of_counted hc,
            accrual_rate]
        · rw [if_neg (mt hcounted.mp hc), ProducerInfo.accrual_of_not hc]
          rfl
      · rw [view_of_find hp]
        by_cases hc : p.Counted p2
        · rw [if_pos (hcounted.mpr hc), ProducerInfo.accrual_of_counted hc,
            amountAt_accrual, ← seconds_sub]
          unfold earned
          rw [hk, hp2]
        · rw [if_neg (mt hcounted.mp hc), ProducerInfo.accrual_of_not hc,
            amountAt_zero]

theorem ShareBooks.accounted {now : ℤ} {e : Election} (h : ShareBooks now e) :
    e.SharesAccounted where
  rate := by
    have hrate := congrArg Prod.snd h.balance
    rw [rate_total, funext fun k => (accruals_eq h.toShareRows k).1] at hrate
    rw [sum_filter, ← total_view]
    exact hrate.symm
  idle k p p2 hp hp2 hnot := by
    obtain ⟨_, hfind, hrow⟩ := h.rows k p hp
    cases hp2.symm.trans hfind
    exact hrow.idle hnot
  share t _ := by
    have hshare := congrArg (fun a => amountAt a (seconds t)) h.balance
    rw [amountAt_total,
      funext fun k => (accruals_eq h.toShareRows k).2 t] at hshare
    rw [sum_filter, ← total_view]
    refine Eq.trans ?_ hshare.symm
    unfold totalAccrual
    rw [amountAt_accrual, seconds_sub]

end Election

/-- **The vote pay is accounted for** in every run from empty tables in which
the votes of no producer are driven below zero, whatever revision of the pay it
is started with: the rate of the total share is the sum of the votes of the
producers that are counted, the others have no share, and from the last update
on the total is at any time the sum of what the counted producers have
earned. -/
theorem votepay_shares_accounted {env : Env} {revision : UInt8}
    {es : List Event} {c : Chain}
    (hrun : Run (Chain.StepAbove env) (.genesisAt env revision) es c) :
    c.sys.election.SharesAccounted := by
  have hkeeps : c.KeepsShares := hrun.invariant (fun _ => True)
    (fun _ _ _ _ hc h => hc.step h) (fun _ _ => trivial)
    (Chain.keepsShares_genesis env revision)
  exact (hkeeps ⟨[], c.slot, fun _ => true⟩ (UInt32.le_refl _)).accounted

namespace Election

variable {env : Env} {ctx : Ctx} {e e' : Election}

/-- A change of the stake of an account that has not voted counts nothing. -/
theorem StakesAbove.unvoted {owner : Name} {totalUpdate : Asset}
    (h : e.updateVotingPower env ctx owner totalUpdate = .ok e')
    (hv : ∀ v, e.voters.find owner = some v →
      v.producers = [] ∧ v.proxy = .none) :
    StakesAbove env ctx owner e e' := by
  refine ⟨totalUpdate, h, fun e₁ v hbook hvoted => ?_⟩
  have hrow : v.producers = [] ∧ v.proxy = .none := by
    unfold bookStake at hbook
    split at hbook
    · simp only [bind_eq_ok, pure_eq_ok, Prod.mk.injEq] at hbook
      obtain ⟨_, _, _, rfl⟩ := hbook
      exact ⟨rfl, rfl⟩
    · next old hold =>
        simp only [bind_eq_ok, pure_eq_ok, Prod.mk.injEq] at hbook
        obtain ⟨_, _, _, rfl⟩ := hbook
        exact hv old hold
  rcases hvoted with hvoted | hvoted
  · exact absurd hrow.1 hvoted
  · exact absurd hrow.2 hvoted

/-- A first vote, for one producer, takes nothing from anybody. -/
theorem VotesAbove.first {voterName p : Name} {v : VoterInfo}
    (hv : e.voters.find voterName = some v) (hlast : v.lastVoteWeight = 0)
    (hvotes : 0 ≤ view ProducerInfo.totalVotes e.producers p) :
    VotesAbove env ctx e voterName .none [p] true := by
  intro u hu
  cases hv.symm.trans hu
  refine ⟨fun hpos => absurd hlast hpos.ne', fun e₁ ds₁ hretract => ?_⟩
  refine ⟨fun hproxy => absurd rfl hproxy, fun e₂ ds₂ hcast => ?_⟩
  unfold retractVote at hretract
  rw [if_neg (by rw [hlast]; exact lt_irrefl 0)] at hretract
  cases hretract
  unfold castVote at hcast
  rw [if_neg (by simp)] at hcast
  split at hcast
  · next hweight =>
      cases hcast
      intro done d rest l heq hdone
      cases done with
      | cons _ done =>
          have hlength := congrArg List.length heq
          simp [bumpDelta] at hlength
      | nil =>
          cases hdone
          obtain ⟨rfl, _⟩ := List.cons_eq_cons.mp heq
          have hsame : (e.activateStake ctx v).producers = e.producers := by
            unfold activateStake
            split <;> rfl
          dsimp only
          rw [hsame]
          exact add_nonneg hvotes hweight
  · cases hcast
    intro done d rest l heq
    exact absurd heq.symm (by simp)

end Election

/-- Alice votes for herself with 12000 and claims a day later; from then on the
total share grows by 12000 a second, all of it hers. -/
theorem votepay_shares_accounted_sample : ∃ c : Chain,
    c.sys.election.totalVpayShareChangeRate = 12000 ∧
    c.sys.election.SharesAccounted := by
  have hsample : Finishes (registeringEvents.foldlM (Chain.exec payEnv)
      (.genesisAt payEnv 1)) (fun c =>
        c.sys.election.voters.find alice = none ∧
        Finishes (Chain.exec payEnv c (.system (.signedBy alice 2)
          (.delegatebw alice alice ⟨9000, inrSymbol⟩ ⟨3000, inrSymbol⟩ false)))
      (fun c => c.sys.election.voters.find alice =
          some { owner := alice, staked := 12000 } ∧
        (c.sys.election.producers.find alice).map (·.totalVotes) = some 0 ∧
        Finishes (Chain.exec payEnv c
          (.system (.signedBy alice 3) (.makeprod alice .none [alice])))
      (fun c => Finishes (Chain.exec payEnv c
          (.system (.signedBy alice 200000) (.claimrewards alice)))
      (fun c => c.sys.election.totalVpayShareChangeRate = 12000)))) := by
    decide +kernel
  obtain ⟨c₁, hopen, hnone, c₂, hstake, hrow, hvotes, c₃, hvote, c₄, hclaim,
    hrate⟩ := hsample
  have hplain : ∀ c e c', e ∈ registeringEvents →
      Chain.Step payEnv c e c' → Chain.StepAbove payEnv c e c' := by
    intro c e c' he hstep
    refine ⟨hstep, ?_⟩
    simp only [registeringEvents, openingEvents, List.cons_append,
      List.nil_append, List.mem_cons, List.not_mem_nil, or_false] at he
    rintro ctx a rfl
    rcases he with h | h | h | h | h | h <;> cases h <;> trivial
  have hopened := (Run.of_foldlM hopen).mono _ hplain (fun _ he => he)
  have hstaked : Run (Chain.StepAbove payEnv) _ _ c₂ := hopened.snoc ⟨hstake, by
    rintro ctx a ⟨⟩
    obtain ⟨s, happly, hsys⟩ := Chain.step_system hstake
    obtain ⟨_, _, _, _, _, hchange⟩ := System.delegatebw_calls happly
    rw [hsys]
    exact .unvoted (System.changebw_power hchange).2
      fun v hv => by cases hnone.symm.trans hv⟩
  have hvoted : Run (Chain.StepAbove payEnv) _ _ c₃ := hstaked.snoc ⟨hvote, by
    rintro ctx a ⟨⟩ prods hmod
    obtain ⟨p, hp, hk, rfl⟩ := modify_eq_ok.mp hmod
    refine .first hrow rfl ?_
    have hzero : p.totalVotes = 0 := by simpa [hp] using hvotes
    have hfound : (c₂.sys.election.producers.put
        { p with isProducer := true }).find alice =
        some { p with isProducer := true } := by
      rw [KeyedTable.find_put_of_key (by exact hk), if_pos rfl]
    rw [view_of_find hfound]
    exact hzero.ge⟩
  have hrun : Run (Chain.StepAbove payEnv) _ _ c₄ :=
    hvoted.snoc ⟨hclaim, by rintro ctx a ⟨⟩; trivial⟩
  exact ⟨c₄, hrate, votepay_shares_accounted hrun⟩

end Inery
