import IneryContracts.MemoryConservation

/-!
# A check that a sale never fails

`sellres` checks that no more tokens are unstaked than were staked.  No other
part of the action stops with the message of this check, and on an open market
the check itself holds: what is paid for bytes never exceeds what was paid in
for them.
-/

namespace Inery

open GuardedStep LedgerVector LabelledRun MachineInt

/-- The stop of the check in `sellres`. -/
def overUnstake : Abort :=
  .check "error, attempt to unstake more tokens than previously staked"

/-- The two stops that no change of stake makes by itself: the stop of that
check, and a read without a row. -/
def Foreign (a : Abort) : Prop := a = overUnstake ∨ a = .endIterator

/-- The message about too much unstaked comes from no shared function. -/
@[simp] theorem foreign_overUnstake : Foreign overUnstake := .inl rfl

/-- Neither does the stop at a missing row. -/
@[simp] theorem foreign_endIterator : Foreign .endIterator := .inr rfl

/-- A check stops this way only with this message. -/
@[simp] theorem check_eq_overUnstake {msg : String} :
    Abort.check msg = overUnstake ↔
      msg = "error, attempt to unstake more tokens than previously staked" := by
  simp [overUnstake]

/-- A missing signature is another stop. -/
@[simp] theorem missingAuthority_ne_overUnstake {a : Name} :
    Abort.missingAuthority a ≠ overUnstake := by simp [overUnstake]

/-- A missing row is another stop. -/
@[simp] theorem endIterator_ne_overUnstake :
    Abort.endIterator ≠ overUnstake := by simp [overUnstake]

/-- An exhausted recursion is another stop. -/
@[simp] theorem outOfFuel_ne_overUnstake :
    Abort.outOfFuel ≠ overUnstake := by simp [overUnstake]

/-- Of the messages of the library only one is the message of the check. -/
theorem check_eq_foreign {a : Abort} (ha : Foreign a) {msg : String} :
    Abort.check msg = a ↔ a = overUnstake ∧
      msg = "error, attempt to unstake more tokens than previously staked" := by
  rcases ha with rfl | rfl
  · simp
  · simp

/-- No foreign stop is a missing signature. -/
theorem missingAuthority_ne_foreign {a : Abort} (ha : Foreign a) (k : Name) :
    Abort.missingAuthority k ≠ a := by
  rcases ha with rfl | rfl
  · simp
  · simp

/-- No foreign stop is a failed conversion. -/
theorem conversion_ne_foreign {a : Abort} (ha : Foreign a) :
    Abort.conversion ≠ a := by
  rcases ha with rfl | rfl
  · simp [overUnstake]
  · simp

/-- A message about a producer is not the message of the check. -/
private theorem producer_message (a b : String) : "producer " ++ a ++ b ≠
    "error, attempt to unstake more tokens than previously staked" := by
  intro h
  have hhead := congrArg (fun s => s.toList.head?) h
  simp at hhead

section Library

variable {a : Abort} {K R : Type} {key : R → K} [DecidableEq K]

/-- Adding a row stops with its own message only. -/
@[simp] theorem emplace_avoids (ha : Foreign a) {t : KeyedTable key} {r : R} :
    Avoids a (emplace t r) := by simp [emplace, check_eq_foreign ha]

/-- Changing a row stops with messages of its own only. -/
@[simp] theorem modify_avoids (ha : Foreign a) {t : KeyedTable key} {k : K}
    {f : R → R} : Avoids a (modify t k f) := by
  simp [modify, modifyM, check_eq_foreign ha]

/-- A sum stops with messages of the asset type. -/
@[simp] theorem Asset.add_avoids (ha : Foreign a) {x y : Asset} :
    Avoids a (x.add y) := by simp [Asset.add, check_eq_foreign ha]

/-- A difference stops with messages of the asset type. -/
@[simp] theorem Asset.sub_avoids (ha : Foreign a) {x y : Asset} :
    Avoids a (x.sub y) := by simp [Asset.sub, check_eq_foreign ha]

/-- A product stops with messages of the asset type. -/
@[simp] theorem Asset.mul_avoids (ha : Foreign a) {x : Asset} {k : ℤ} :
    Avoids a (x.mul k) := by simp [Asset.mul, check_eq_foreign ha]

/-- A quotient stops with messages of the asset type. -/
@[simp] theorem Asset.div_avoids (ha : Foreign a) {x : Asset} {k : ℤ} :
    Avoids a (x.div k) := by simp [Asset.div, check_eq_foreign ha]

/-- A new asset stops with messages of the asset type. -/
@[simp] theorem Asset.make_avoids (ha : Foreign a) {x : ℤ}
    {symbol : Symbol} : Avoids a (Asset.make x symbol) := by
  simp [Asset.make, check_eq_foreign ha]

/-- A conversion to 64 bits stops as a conversion. -/
@[simp] theorem toInt64_avoids (ha : Foreign a) {x : ℚ} :
    Avoids a (toInt64 x) := by simp [toInt64, conversion_ne_foreign ha]

/-- A conversion to 64 unsigned bits stops as a conversion. -/
@[simp] theorem toUInt64_avoids (ha : Foreign a) {x : ℚ} :
    Avoids a (toUInt64 x) := by simp [toUInt64, conversion_ne_foreign ha]

/-- The core symbol is missing with a message of its own. -/
@[simp] theorem coreSymbol_avoids (ha : Foreign a) {m : Market} :
    Avoids a m.coreSymbol := by simp [Market.coreSymbol, check_eq_foreign ha]

end Library

namespace Election

/-! ## Voting -/

variable {env : Env} {ctx : Ctx} {e : Election}

/-- A vote applied to one producer stops for other reasons. -/
private theorem applyDelta_avoids (ct : ℤ) (owner : Name) (voting : Bool)
    (l : VoteLoop) (pd : ProducerDelta) :
    Avoids overUnstake (applyDelta ct owner voting l pd) := by
  simp [applyDelta, producer_message]

/-- A change of weight applied to one producer stops for other reasons. -/
private theorem applyWeight_avoids (ct : ℤ) (delta : ℚ) (l : VoteLoop)
    (acnt : Name) : Avoids overUnstake (applyWeight ct delta l acnt) := by
  simp [applyWeight]

/-- So does passing a change on, if re-weighing does. -/
private theorem passWeight_avoids
    {propagate : Election → Name → Except Abort Election}
    (h : ∀ e name, Avoids overUnstake (propagate e name)) {voter : VoterInfo}
    {delta : ℚ} :
    Avoids overUnstake (passWeight ctx propagate e voter delta) := by
  unfold passWeight
  split
  · split
    · simp [h]
    · simp [avoids_foldlM (applyWeight_avoids _ _)]
  · simp

/-- Re-weighing stops for other reasons, by induction on the depth. -/
private theorem propagateWeightChange_avoids {fuel : ℕ} {voterName : Name} :
    Avoids overUnstake (propagateWeightChange env ctx fuel e voterName) := by
  induction fuel generalizing e voterName with
  | zero => simp [propagateWeightChange]
  | succ fuel ih =>
      simp [propagateWeightChange, passWeight_avoids (fun _ _ => ih)]

/-- Taking the last vote off stops for other reasons. -/
private theorem retractVote_avoids {voter : VoterInfo} :
    Avoids overUnstake (e.retractVote env ctx voter) := by
  unfold retractVote
  split
  · split
    · simp [propagateWeightChange_avoids]
    · simp
  · simp

/-- Casting a vote stops for other reasons. -/
private theorem castVote_avoids {deltas : List ProducerDelta} {weight : ℚ}
    {proxy : Name} {producers : List Name} {voting : Bool} :
    Avoids overUnstake
      (e.castVote env ctx deltas weight proxy producers voting) := by
  unfold castVote
  split
  · simp only [avoids_bind, avoids_orStop, avoids_check]
    refine ⟨by simp, fun _ _ => ⟨by simp, fun _ _ => ?_⟩⟩
    split
    · simp [propagateWeightChange_avoids]
    · simp
  · split
    · simp
    · simp

/-- The checks on the arguments of a vote are others. -/
private theorem validateVote_avoids {voterName proxy : Name}
    {producers : List Name} :
    Avoids overUnstake (validateVote voterName proxy producers) := by
  unfold validateVote
  split
  · simp
  · simp

/-- A whole vote stops for other reasons. -/
private theorem updateVotes_avoids {voterName proxy : Name}
    {producers : List Name} {voting : Bool} :
    Avoids overUnstake
      (e.updateVotes env ctx voterName proxy producers voting) := by
  simp [updateVotes, validateVote_avoids, retractVote_avoids, castVote_avoids,
    avoids_foldlM (applyDelta_avoids _ _ _)]

/-- Booking a stake stops with no message of a sale. -/
theorem bookStake_avoids {stop : Abort} (hstop : Foreign stop)
    {voterName : Name} {total : Asset} :
    Avoids stop (e.bookStake voterName total) := by
  unfold bookStake
  split
  · simp [hstop]
  · simp [hstop]

/-- The vesting check has a message of its own. -/
theorem checkVesting_avoids {stop : Abort} (hstop : Foreign stop)
    {voterName : Name} {stake : ℤ} :
    Avoids stop (checkVesting ctx voterName stake) := by
  unfold checkVesting
  split
  · simp [validateB1Vesting, hstop, check_eq_foreign hstop]
  · simp

/-- A change of voting power stops for other reasons. -/
private theorem updateVotingPower_avoids {voterName : Name} {total : Asset} :
    Avoids overUnstake (e.updateVotingPower env ctx voterName total) := by
  simp only [updateVotingPower, avoids_bind,
    bookStake_avoids foreign_overUnstake,
    checkVesting_avoids foreign_overUnstake, avoids_check, true_and]
  refine fun r _ => ⟨by simp, fun _ _ _ _ => ?_⟩
  split
  · exact updateVotes_avoids
  · simp

end Election

namespace System

/-! ## Staking -/

section Staking

variable {stop : Abort}

/-- The row of the delegator stops with messages of its own. -/
private theorem updateDelband_avoids (hstop : Foreign stop)
    {delTbl : KeyedTable DelegatedBandwidth.to'} {from' receiver : Name}
    {dn dc : Asset} :
    Avoids stop (updateDelband delTbl from' receiver dn dc) := by
  unfold updateDelband bookDelegation
  cases delTbl.find receiver with
  | none => simp [hstop, check_eq_foreign hstop]
  | some row => simp [hstop, check_eq_foreign hstop]

/-- The totals of the receiver stop with messages of their own. -/
private theorem updateTotals_avoids (hstop : Foreign stop)
    {tbl : KeyedTable UserResources.owner} {receiver : Name} {dn dc : Asset} :
    Avoids stop (updateTotals tbl receiver dn dc) := by
  unfold updateTotals bookTotals
  cases tbl.find receiver with
  | none => simp [hstop, check_eq_foreign hstop]
  | some row => simp [hstop, check_eq_foreign hstop]

/-- Taking a refund up stops with messages of the asset type. -/
private theorem reuseRefund_avoids (hstop : Foreign stop)
    {amount balance : Asset} : Avoids stop (reuseRefund amount balance) := by
  simp only [reuseRefund, avoids_bind, Asset.sub_avoids hstop, true_and]
  intro left _
  split
  · simp
  · simp

/-- Starting a refund stops with messages of the asset type. -/
private theorem startRefund_avoids (hstop : Foreign stop) {core : Symbol}
    {balance : Asset} : Avoids stop (startRefund core balance) := by
  unfold startRefund
  split
  · simp
  · simp [hstop]

/-- The refund stops with messages of its own, if the core symbol does. -/
private theorem updateRefund_avoids (hstop : Foreign stop) {ctx : Ctx}
    {refunds : KeyedTable RefundRequest.owner} {core : Except Abort Symbol}
    (hcore : Avoids stop core) {from' receiver : Name} {dn dc : Asset}
    {transfer : Bool} : Avoids stop
      (updateRefund ctx refunds core from' receiver dn dc transfer) := by
  unfold updateRefund
  dsimp only
  split
  · split
    · simp only [avoids_bind, reuseRefund_avoids hstop, modify_avoids hstop,
        avoids_check, check_eq_foreign hstop, true_and]
      refine fun _ _ _ _ _ _ => ⟨by simp, fun _ _ => ⟨by simp, fun _ _ => ?_⟩⟩
      split <;> split <;> exact avoids_pure
    · split
      · simp [hcore, hstop, startRefund_avoids hstop]
      · simp
  · simp

/-- Settling a refund stops with no message of a sale. -/
private theorem settleRefund_avoids (hstop : Foreign stop) {ctx : Ctx}
    {s : SysState} {source from' receiver : Name} {dn dc : Asset}
    {transfer : Bool} : Avoids stop
      (settleRefund ctx s source from' receiver dn dc transfer) := by
  unfold settleRefund
  split
  · simp
  · simp only [avoids_bind,
      updateRefund_avoids hstop (coreSymbol_avoids hstop),
      Asset.add_avoids hstop, true_and]
    intro _ _ _ _
    split
    · simp
    · simp

/-- A change of stake does not make a foreign stop where booking it with the
voter does not. -/
theorem changebw_avoids (hstop : Foreign stop) {env : Env} {ctx : Ctx}
    {s : SysState} {from' receiver : Name} {dn dc : Asset} {transfer : Bool}
    (hpower : ∀ owner total,
      Avoids stop (s.election.updateVotingPower env ctx owner total)) :
    Avoids stop (changebw env ctx s from' receiver dn dc transfer) := by
  simp only [changebw, avoids_bind, Ctx.avoids_requireAuth,
    missingAuthority_ne_foreign hstop, avoids_check, check_eq_foreign hstop,
    Asset.add_avoids hstop, updateDelband_avoids hstop,
    updateTotals_avoids hstop, settleRefund_avoids hstop, avoids_pure,
    false_implies, true_and, implies_true, and_true]
  refine fun _ _ => ⟨by simp, fun _ _ _ _ => ⟨by simp, ?_⟩⟩
  intro _ _ delTbl _ r _ s₁ hsettle
  obtain ⟨limits, hlimits⟩ := updateLimits_ok { s with
    delband := Function.update s.delband _ delTbl
    userres := r.1 } receiver r.2
  rw [hlimits] at hsettle
  obtain ⟨refunds, deferred, outbox, rfl⟩ := settleRefund_form hsettle
  exact hpower _ _

/-- Staking stops with no message of a sale if the voting power does not. -/
theorem delegatebw_avoids (hstop : Foreign stop) {env : Env} {ctx : Ctx}
    {s : SysState} {from' receiver : Name} {net cpu : Asset} {transfer : Bool}
    (hpower : ∀ owner total,
      Avoids stop (s.election.updateVotingPower env ctx owner total)) :
    Avoids stop (delegatebw env ctx s from' receiver net cpu transfer) := by
  simp [delegatebw, Asset.checkGe, changebw_avoids hstop hpower, hstop,
    check_eq_foreign hstop]

/-- Unstaking stops with no message of a sale if the voting power does not. -/
theorem undelegatebw_avoids (hstop : Foreign stop) {env : Env} {ctx : Ctx}
    {s : SysState} {from' receiver : Name} {net cpu : Asset}
    (hpower : ∀ owner total,
      Avoids stop (s.election.updateVotingPower env ctx owner total)) :
    Avoids stop (undelegatebw env ctx s from' receiver net cpu) := by
  simp [undelegatebw, Asset.checkGe, changebw_avoids hstop hpower, hstop,
    check_eq_foreign hstop]

/-! ## The sale -/

/-- The exchange stops with messages of its own. -/
theorem directConvert_avoids (hstop : Foreign stop) {es : ExchangeState}
    {sold : Asset} {to' : Symbol} :
    Avoids stop (es.directConvert sold to') := by
  simp only [ExchangeState.directConvert, avoids_bind, avoids_check,
    check_eq_foreign hstop, Asset.make_avoids hstop, true_and]
  refine ⟨by simp, fun _ _ _ _ => ?_⟩
  split
  · simp [hstop]
  · split
    · simp [ExchangeState.getBancorOutput, hstop]
    · simp [check_eq_foreign hstop]

/-- The growth of the supply stops with messages of its own. -/
theorem updateMemSupply_avoids (hstop : Foreign stop) {ctx : Ctx}
    {m : Market} : Avoids stop (m.updateMemSupply ctx) := by
  unfold Market.updateMemSupply
  dsimp only
  split
  · simp
  · simp [Market.noRow, check_eq_foreign hstop]

end Staking

/-- Selling bytes that an account holds passes the check. -/
private theorem sell_avoids {s : SysState} {core : Symbol} {quote₀ : ℤ}
    {row : ExchangeState} {L : LotMarket Name 10000 mib} {account : Name}
    {bytes : ℤ} (h : Trades s core quote₀ row L) (hpos : 0 < bytes)
    (hheld : bytes ≤ L.held account) :
    Avoids overUnstake (s.market.sell bytes) := by
  simp only [Market.sell, avoids_bind, avoids_orStop, foreign_overUnstake,
    Asset.make_avoids, coreSymbol_avoids, directConvert_avoids,
    Asset.mul_avoids, avoids_check, toUInt64_avoids, avoids_pure, true_and,
    orStop_eq_ok, Asset.make_eq_ok, Asset.mul_eq_ok, check_eq_ok,
    implies_true, and_true]
  refine ⟨by simp [Market.noRow], fun itr hitr sold hsold core' hcore' r hconv
    tokens htokens => ⟨by simp, fun _ _ _ _ _ => ?_⟩⟩
  obtain rfl : row = itr :=
    Option.some.inj (h.hasRow.found.symm.trans hitr)
  obtain rfl : core = core' :=
    Except.ok.inj (h.hasRow.coreSymbol.symm.trans hcore')
  obtain ⟨_, _, rfl⟩ := hsold
  obtain ⟨hout, _⟩ := Market.directConvert_sell h.hasRow hpos hconv
  obtain ⟨_, rfl⟩ := htokens
  rw [hout]
  have hdiv := Int.ediv_mul_le bytes (show mib ≠ 0 by decide)
  have hprice : bytes / mib * 10000 * mib ≤ bytes * 10000 := by linarith
  have hpaid := L.payment_le_paid (by decide) (by decide) hheld hprice
  have hnonneg : 0 ≤ bytes / mib := Int.ediv_nonneg hpos.le (by decide)
  have hpaidle := h.paid_le
  unfold Asset.maxAmount at hpaidle
  dsimp only
  rw [h.paid, i64_of_range (by omega) (by omega)]
  omega

/-- **A sale never fails the check of what was staked.** -/
theorem sellres_avoids {env : Env} {ctx : Ctx} {s : SysState}
    (hmarket : Closed s ∨ ∃ core quote₀, Open core quote₀ s) (account : Name)
    (bytes : ℤ) : Avoids overUnstake (sellres env ctx s account bytes) := by
  simp only [sellres, avoids_bind, Ctx.avoids_requireAuth, avoids_check,
    avoids_tableGet, avoids_deref, foreign_overUnstake,
    updateMemSupply_avoids, modify_avoids, coreSymbol_avoids,
    Asset.make_avoids, undelegatebw_avoids foreign_overUnstake
      (fun _ _ => Election.updateVotingPower_avoids), avoids_pure,
    true_and, deref_eq_ok, check_eq_ok, implies_true, and_true]
  refine ⟨by simp, fun _ _ market hgrow => ⟨by simp, fun _ hpos =>
    ⟨by simp, fun _ _ => ⟨by simp, fun res hres => ⟨by simp, fun _ _ =>
      ⟨by simp, fun _ hquota => ?_⟩⟩⟩⟩⟩⟩
  have hheld : s.memBytes account = res.memBytes := view_of_find hres
  rcases hmarket with hclosed | ⟨core, quote₀, hopen⟩
  · rw [hclosed.userres account] at hres
    cases hres
  · obtain ⟨_, row, L, htrades⟩ := hopen.grown hgrow
    have hsold : bytes ≤ L.held account := by
      rw [← htrades.held]
      exact hquota.trans_eq hheld.symm
    exact sell_avoids htrades hpos hsold

end System

end Inery
