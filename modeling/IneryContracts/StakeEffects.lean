import IneryContracts.StakeContract
import IneryContracts.VotingFrame

/-!
# What a change of stake does to the tables

The four parts of `changebw`, each described by what it books: the row of the
delegator and the totals of the receiver move by the same amount, the refund
takes up what is unstaked and gives back what is staked again, and the rest is
paid by the source of the stake.
-/

namespace Inery

open GuardedStep LedgerVector MachineInt

/-! ## The ledgers the tables spell -/

/-- The two amounts of a row of `delband`. -/
def DelegatedBandwidth.weights (d : DelegatedBandwidth) : ℤ × ℤ :=
  (d.netWeight.amount, d.cpuWeight.amount)

/-- The two amounts of a row of `userres`. -/
def UserResources.weights (r : UserResources) : ℤ × ℤ :=
  (r.netWeight.amount, r.cpuWeight.amount)

/-- The two amounts of a row of `refunds`. -/
def RefundRequest.weights (r : RefundRequest) : ℤ × ℤ :=
  (r.netAmount.amount, r.cpuAmount.amount)

namespace SysState

/-- The stake from one account to another. -/
def delegated (s : SysState) : Name → Name → ℤ × ℤ := fun a =>
  view DelegatedBandwidth.weights (s.delband a)

/-- The totals kept for the receivers of stake. -/
def totals (s : SysState) : Name → ℤ × ℤ :=
  view UserResources.weights s.userres

/-- The bytes of memory the accounts have bought. -/
def memBytes (s : SysState) : Name → ℤ :=
  view UserResources.memBytes s.userres

/-- The pending refunds. -/
def refunded (s : SysState) : Name → ℤ × ℤ :=
  view RefundRequest.weights s.refunds

/-- The stake the voters vote with. -/
def staked (s : SysState) : Name → ℤ := s.election.staked

end SysState

theorem DelegatedBandwidth.isEmpty_iff {d : DelegatedBandwidth} :
    d.isEmpty = true ↔ d.weights = 0 := by
  simp [isEmpty, weights, Prod.ext_iff]

theorem RefundRequest.isEmpty_iff {r : RefundRequest} :
    r.isEmpty = true ↔ r.weights = 0 := by
  simp [isEmpty, weights, Prod.ext_iff]

theorem UserResources.isEmpty_iff {r : UserResources} :
    r.isEmpty = true ↔ r.weights = 0 ∧ r.memBytes = 0 := by
  simp [isEmpty, weights, Prod.ext_iff, and_assoc]

/-- A change of stake is booked with the refund of the owner. -/
def BooksRefund (owner receiver : Name) (dn dc : ℤ) (transfer : Bool) : Prop :=
  transfer = false ∧ owner = receiver ∨ dn + dc < 0

namespace System

/-! ## The row of the delegator -/

theorem bookDelegation_ok {delTbl delTbl' : KeyedTable DelegatedBandwidth.to'}
    {from' receiver : Name} {dn dc : Asset} {row : DelegatedBandwidth}
    (h : bookDelegation delTbl from' receiver dn dc = .ok (delTbl', row)) :
    row.to' = receiver ∧ delTbl' = delTbl.put row ∧
    row.weights = view DelegatedBandwidth.weights delTbl receiver +
      (dn.amount, dc.amount) := by
  unfold bookDelegation at h
  split at h
  · next hnone =>
      simp only [bind_eq_ok, emplace_eq_ok, pure_eq_ok, Prod.mk.injEq] at h
      obtain ⟨_, ⟨_, rfl⟩, rfl, rfl⟩ := h
      refine ⟨rfl, rfl, ?_⟩
      rw [view_of_none hnone, zero_add]
      rfl
  · next itr hrow =>
      simp only [bind_eq_ok, Asset.add_eq_ok, modify_eq_ok, pure_eq_ok,
        Prod.mk.injEq] at h
      obtain ⟨_, ⟨_, _, rfl⟩, _, ⟨_, _, rfl⟩, _, ⟨_, _, _, rfl⟩, rfl, rfl⟩ := h
      have hkey : itr.to' = receiver := KeyedTable.key_of_find hrow
      refine ⟨hkey, rfl, ?_⟩
      rw [view_of_find hrow]
      rfl

/-- A stored delegation moves by the change of stake and stays non-negative;
a row of two zeros is not stored. -/
theorem updateDelband_ok {delTbl delTbl' : KeyedTable DelegatedBandwidth.to'}
    {from' receiver : Name} {dn dc : Asset}
    (h : updateDelband delTbl from' receiver dn dc = .ok delTbl') :
    view DelegatedBandwidth.weights delTbl' =
      view DelegatedBandwidth.weights delTbl +
        Pi.single receiver (dn.amount, dc.amount) ∧
    ∀ k row, delTbl'.find k = some row → delTbl.find k = some row ∨
      0 ≤ row.weights ∧ row.isEmpty = false := by
  simp only [updateDelband, bind_eq_ok, check_eq_ok, pure_eq_ok,
    exists_const] at h
  obtain ⟨⟨tbl, row⟩, hbook, hnet, hcpu, rfl⟩ := h
  obtain ⟨hto, rfl, hweights⟩ := bookDelegation_ok hbook
  dsimp only at hnet hcpu ⊢
  refine ⟨?_, fun k q hq => ?_⟩
  · rw [view_settle _ _ hto (fun he => DelegatedBandwidth.isEmpty_iff.mp he),
      hweights, add_sub_cancel_left]
  · rw [KeyedTable.find_settle _ hto] at hq
    split at hq
    · split at hq
      · cases hq
      · next he =>
          cases hq
          exact .inr ⟨⟨hnet, hcpu⟩, by simpa using he⟩
    · exact .inl hq

/-! ## The totals of the receiver -/

theorem bookTotals_ok {tbl tbl' : KeyedTable UserResources.owner}
    {receiver : Name} {dn dc : Asset} {row : UserResources}
    (h : bookTotals tbl receiver dn dc = .ok (tbl', row)) :
    row.owner = receiver ∧ tbl' = tbl.put row ∧
    row.weights = view UserResources.weights tbl receiver +
      (dn.amount, dc.amount) ∧
    row.memBytes = view UserResources.memBytes tbl receiver := by
  unfold bookTotals at h
  split at h
  · next hnone =>
      simp only [bind_eq_ok, emplace_eq_ok, pure_eq_ok, Prod.mk.injEq] at h
      obtain ⟨_, ⟨_, rfl⟩, rfl, rfl⟩ := h
      refine ⟨rfl, rfl, ?_, ?_⟩
      · rw [view_of_none hnone, zero_add]
        rfl
      · rw [view_of_none hnone]
  · next itr hrow =>
      simp only [bind_eq_ok, Asset.add_eq_ok, modify_eq_ok, pure_eq_ok,
        Prod.mk.injEq] at h
      obtain ⟨_, ⟨_, _, rfl⟩, _, ⟨_, _, rfl⟩, _, ⟨_, _, _, rfl⟩, rfl, rfl⟩ := h
      have hkey : itr.owner = receiver := KeyedTable.key_of_find hrow
      refine ⟨hkey, rfl, ?_, ?_⟩
      · rw [view_of_find hrow]
        rfl
      · rw [view_of_find hrow]

/-- The totals move by the change of stake and stay non-negative, the bought
bytes stay; the row is dropped only when nothing at all is left in it. -/
theorem updateTotals_ok {tbl tbl' : KeyedTable UserResources.owner}
    {receiver : Name} {dn dc : Asset} {tot : UserResources}
    (h : updateTotals tbl receiver dn dc = .ok (tbl', tot)) :
    tot.owner = receiver ∧
    tot.memBytes = view UserResources.memBytes tbl receiver ∧
    view UserResources.weights tbl' = view UserResources.weights tbl +
      Pi.single receiver (dn.amount, dc.amount) ∧
    view UserResources.memBytes tbl' = view UserResources.memBytes tbl ∧
    0 ≤ view UserResources.weights tbl' receiver ∧
    ∀ k, tbl'.find k = if k = receiver then
        (if tot.isEmpty then none else some tot) else tbl.find k := by
  simp only [updateTotals, bind_eq_ok, check_eq_ok, pure_eq_ok,
    exists_const] at h
  obtain ⟨⟨tbl₁, row⟩, hbook, hnet, hcpu, heq⟩ := h
  obtain ⟨howner, rfl, hweights, hmem⟩ := bookTotals_ok hbook
  dsimp only at hnet hcpu heq
  cases heq
  have hview : view UserResources.weights
      (if tot.isEmpty then (tbl.put tot).erase receiver else tbl.put tot) =
      view UserResources.weights tbl +
        Pi.single receiver (dn.amount, dc.amount) := by
    rw [view_settle _ _ howner
      (fun he => (UserResources.isEmpty_iff.mp he).1), hweights,
      add_sub_cancel_left]
  refine ⟨howner, hmem, hview, ?_, ?_, KeyedTable.find_settle _ howner _⟩
  · rw [view_settle _ _ howner
      (fun he => (UserResources.isEmpty_iff.mp he).2), hmem, sub_self,
      Pi.single_zero, add_zero]
  · rw [hview, Pi.add_apply, Pi.single_eq_same, ← hweights]
    exact ⟨hnet, hcpu⟩

/-! ## The refund of the delegator -/

private theorem reuseRefund_ok {amount balance left rest : Asset}
    (h : reuseRefund amount balance = .ok (left, rest)) :
    rest.amount = balance.amount + (left.amount - amount.amount) ∧
    0 ≤ left.amount ∧ 0 ≤ rest.amount ∧
    left.symbol = balance.symbol ∧ rest.symbol = balance.symbol := by
  simp only [reuseRefund, bind_eq_ok, Asset.sub_eq_ok] at h
  obtain ⟨_, ⟨hsym, _, rfl⟩, h⟩ := h
  dsimp only at h
  split at h
  · next hneg =>
      cases h
      dsimp only [Asset.neg]
      exact ⟨by omega, le_refl 0, by omega, hsym.symm, hsym.symm⟩
  · next hnonneg =>
      cases h
      dsimp only
      exact ⟨by omega, by omega, le_refl 0, hsym.symm, rfl⟩

private theorem startRefund_ok {core : Symbol} {balance left rest : Asset}
    (hcore : balance.symbol = core)
    (h : startRefund core balance = .ok (left, rest)) :
    rest.amount = balance.amount + left.amount ∧
    0 ≤ left.amount ∧ 0 ≤ rest.amount ∧
    (balance.amount < 0 → left.amount = -balance.amount) ∧
    left.symbol = core ∧ rest.symbol = core := by
  unfold startRefund at h
  split at h
  · next hneg =>
      cases h
      dsimp only [Asset.neg]
      exact ⟨by omega, by omega, le_refl 0, fun _ => rfl, hcore, hcore⟩
  · next hnonneg =>
      simp only [bind_eq_ok, Asset.make_eq_ok, pure_eq_ok, Prod.mk.injEq] at h
      obtain ⟨_, ⟨_, _, rfl⟩, rfl, rfl⟩ := h
      exact ⟨by dsimp only; omega, le_refl 0, by omega, fun hlt => by omega,
        rfl, hcore⟩

/-- Two changes of stake of one sign. -/
def SameSign (dn dc : ℤ) : Prop := 0 ≤ dn ∧ 0 ≤ dc ∨ dn ≤ 0 ∧ dc ≤ 0

/-- The refund of an owner has moved by `ρ`; what is left to be paid is what
was staked and what was taken out of the refund. -/
structure RefundBooked (refunds : KeyedTable RefundRequest.owner)
    (owner : Name) (dn dc : Asset) (u : RefundUpdate) (ρ : ℤ × ℤ) :
    Prop where
  booked : view RefundRequest.weights u.refunds =
    view RefundRequest.weights refunds + Pi.single owner ρ
  net : u.netBalance.amount = dn.amount + ρ.1
  cpu : u.cpuBalance.amount = dc.amount + ρ.2
  net_nonneg : 0 ≤ u.netBalance.amount
  cpu_nonneg : 0 ≤ u.cpuBalance.amount
  symbol : u.netBalance.symbol = dn.symbol
  rows : ∀ k row, u.refunds.find k = some row → refunds.find k = some row ∨
    0 ≤ row.weights ∧ row.isEmpty = false ∧ row.netAmount.symbol = dn.symbol

/-- Where the refund is left alone, the stake is paid in full. -/
private theorem refundBooked_idle {refunds : KeyedTable RefundRequest.owner}
    {owner : Name} {dn dc : Asset} {b : Bool} (hn : 0 ≤ dn.amount)
    (hc : 0 ≤ dc.amount) :
    RefundBooked refunds owner dn dc ⟨refunds, dn, dc, b⟩ 0 where
  booked := by simp
  net := by simp
  cpu := by simp
  net_nonneg := hn
  cpu_nonneg := hc
  symbol := rfl
  rows _ _ h := .inl h

/-- Where a row is stored, or dropped because it is empty. -/
private theorem refundBooked_settle
    (refunds : KeyedTable RefundRequest.owner) (req : RefundRequest)
    (b : Bool) {owner : Name} {dn dc net cpu : Asset}
    (howner : req.owner = owner) (hreq : 0 ≤ req.weights)
    (hnet : net.amount = dn.amount +
      (req.weights - view RefundRequest.weights refunds owner).1)
    (hcpu : cpu.amount = dc.amount +
      (req.weights - view RefundRequest.weights refunds owner).2)
    (hn : 0 ≤ net.amount) (hc : 0 ≤ cpu.amount)
    (hsym : net.symbol = dn.symbol)
    (hrsym : req.netAmount.symbol = dn.symbol) :
    RefundBooked refunds owner dn dc
      ⟨if req.isEmpty then (refunds.put req).erase owner
        else refunds.put req, net, cpu, b⟩
      (req.weights - view RefundRequest.weights refunds owner) where
  booked := view_settle _ _ howner
    (fun he => RefundRequest.isEmpty_iff.mp he)
  net := hnet
  cpu := hcpu
  net_nonneg := hn
  cpu_nonneg := hc
  symbol := hsym
  rows k row hrow := by
    rw [KeyedTable.find_settle _ howner] at hrow
    split at hrow
    · split at hrow
      · cases hrow
      · next he =>
          cases hrow
          exact .inr ⟨hreq, by simpa using he, hrsym⟩
    · exact .inl hrow

/-- The ways a change of stake is booked with the refund of the owner: not at
all, with a refund that starts with it, or with the one there is, which is
dropped when nothing is left of it. -/
inductive UpdatesRefund (ctx : Ctx) (refunds : KeyedTable RefundRequest.owner)
    (core : Except Abort Symbol) (from' receiver : Name) (dn dc : Asset)
    (transfer : Bool) : RefundUpdate → Prop
  | apart (books : ¬ BooksRefund from' receiver dn.amount dc.amount transfer) :
      UpdatesRefund ctx refunds core from' receiver dn dc transfer
        ⟨refunds, dn, dc, false⟩
  | absent (books : BooksRefund from' receiver dn.amount dc.amount transfer)
      (row : refunds.find from' = none)
      (staking : ¬ (dn.amount < 0 ∨ dc.amount < 0)) :
      UpdatesRefund ctx refunds core from' receiver dn dc transfer
        ⟨refunds, dn, dc, false⟩
  | started {symbol : Symbol} {left rest left' rest' : Asset}
      (books : BooksRefund from' receiver dn.amount dc.amount transfer)
      (row : refunds.find from' = none)
      (unstaking : dn.amount < 0 ∨ dc.amount < 0) (found : core = .ok symbol)
      (net : startRefund symbol dn = .ok (left, rest))
      (cpu : startRefund symbol dc = .ok (left', rest')) :
      UpdatesRefund ctx refunds core from' receiver dn dc transfer
        ⟨refunds.put ⟨from', ctx.secSinceEpoch, left, left'⟩, rest, rest', true⟩
  | reused {r req : RefundRequest} {rest rest' : Asset}
      (books : BooksRefund from' receiver dn.amount dc.amount transfer)
      (row : refunds.find from' = some r) (owner : req.owner = from')
      (net : reuseRefund r.netAmount dn = .ok (req.netAmount, rest))
      (cpu : reuseRefund r.cpuAmount dc = .ok (req.cpuAmount, rest'))
      (time : req.requestTime = if dn.amount < 0 ∨ dc.amount < 0 then
        ctx.secSinceEpoch else r.requestTime) :
      UpdatesRefund ctx refunds core from' receiver dn dc transfer
        ⟨if req.isEmpty then (refunds.put req).erase from'
          else refunds.put req, rest, rest', !req.isEmpty⟩

/-- **The third part of `changebw`, taken apart.** -/
theorem updateRefund_cases {ctx : Ctx}
    {refunds : KeyedTable RefundRequest.owner} {core : Except Abort Symbol}
    {from' receiver : Name} {dn dc : Asset} {transfer : Bool}
    {u : RefundUpdate}
    (h : updateRefund ctx refunds core from' receiver dn dc transfer = .ok u) :
    UpdatesRefund ctx refunds core from' receiver dn dc transfer u := by
  unfold updateRefund at h
  dsimp only at h
  split at h
  · next hself =>
      have hbooks : BooksRefund from' receiver dn.amount dc.amount
          transfer := by
        simpa [BooksRefund] using hself
      split at h
      · next r hr =>
          simp only [bind_eq_ok, modify_eq_ok, check_eq_ok, exists_const] at h
          obtain ⟨⟨left, rest⟩, hnet, ⟨left', rest'⟩, hcpu, tbl,
            ⟨_, _, hkey, rfl⟩, _, _, h⟩ := h
          obtain ⟨req, hreq⟩ : ∃ req : RefundRequest, req = { r with
              requestTime := if decide (dn.amount < 0 ∨ dc.amount < 0) = true
                then ctx.secSinceEpoch else r.requestTime
              netAmount := left
              cpuAmount := left' } := ⟨_, rfl⟩
          have hreused : UpdatesRefund ctx refunds core from' receiver dn dc
              transfer ⟨if req.isEmpty then (refunds.put req).erase from'
                else refunds.put req, rest, rest', !req.isEmpty⟩ :=
            .reused hbooks hr (by rw [hreq]; exact hkey)
              (by rw [hreq]; exact hnet) (by rw [hreq]; exact hcpu)
              (by rw [hreq]; simp only [decide_eq_true_eq])
          dsimp only at h
          rw [← hreq] at h
          split at h
          · next hempty =>
              cases h
              simpa only [hempty, if_true, Bool.not_true] using hreused
          · next hempty =>
              cases h
              simpa only [hempty, if_false, Bool.not_false,
                Bool.false_eq_true] using hreused
      · next hr =>
          split at h
          · next hun =>
              simp only [bind_eq_ok, emplace_eq_ok, pure_eq_ok] at h
              obtain ⟨symbol, hfound, ⟨left, rest⟩, hnet, ⟨left', rest'⟩, hcpu,
                tbl, ⟨_, rfl⟩, rfl⟩ := h
              exact .started hbooks hr (of_decide_eq_true hun) hfound hnet hcpu
          · next hun =>
              cases h
              exact .absent hbooks hr (by simpa using hun)
  · next hself =>
      cases h
      exact .apart (by simpa [BooksRefund] using hself)

/-- The refund of the delegator takes up what is unstaked and gives back what
is staked again.  A stake given away does not touch it. -/
theorem updateRefund_ok {ctx : Ctx} {refunds : KeyedTable RefundRequest.owner}
    {core : Except Abort Symbol} {from' receiver : Name} {dn dc : Asset}
    {transfer : Bool} {u : RefundUpdate}
    (hsign : SameSign dn.amount dc.amount)
    (hcore : core = .ok dn.symbol) (hsym : dc.symbol = dn.symbol)
    (h : updateRefund ctx refunds core from' receiver dn dc transfer = .ok u) :
    ∃ ρ, RefundBooked refunds from' dn dc u ρ ∧
      (transfer = true → 0 ≤ dn.amount → 0 ≤ dc.amount → ρ = 0) := by
  have hgiven : BooksRefund from' receiver dn.amount dc.amount transfer →
      transfer = true → 0 ≤ dn.amount → 0 ≤ dc.amount → False := by
    rintro (⟨rfl, _⟩ | hneg) ht hn hc
    · cases ht
    · omega
  cases updateRefund_cases h with
  | apart books =>
      have hsum : ¬ dn.amount + dc.amount < 0 := fun hneg => books (.inr hneg)
      have hn : 0 ≤ dn.amount := by
        rcases hsign with hs | hs <;> omega
      have hc : 0 ≤ dc.amount := by
        rcases hsign with hs | hs <;> omega
      exact ⟨0, refundBooked_idle hn hc, fun _ _ _ => rfl⟩
  | absent books row staking =>
      exact ⟨0, refundBooked_idle (by omega) (by omega), fun _ _ _ => rfl⟩
  | @started symbol left rest left' rest' books row unstaking found net cpu =>
      obtain rfl := Except.ok.inj (hcore.symm.trans found)
      obtain ⟨hrest, hleft, hpos, hneg, hlsym, hrsym⟩ := startRefund_ok rfl net
      obtain ⟨hrest', hleft', hpos', hneg', _, _⟩ := startRefund_ok hsym cpu
      have hne : (⟨from', ctx.secSinceEpoch, left, left'⟩ :
          RefundRequest).isEmpty = false := by
        simp [RefundRequest.isEmpty]
        omega
      have hrow : view RefundRequest.weights refunds from' = 0 :=
        view_of_none row
      have hbooked := refundBooked_settle refunds
        ⟨from', ctx.secSinceEpoch, left, left'⟩ true rfl ⟨hleft, hleft'⟩
        (by rw [hrow, sub_zero]; exact hrest)
        (by rw [hrow, sub_zero]; exact hrest') hpos hpos' hrsym hlsym
      simp only [hne] at hbooked
      exact ⟨_, hbooked, fun ht hn hc => (hgiven books ht hn hc).elim⟩
  | @reused r req rest rest' books row owner net cpu time =>
      obtain ⟨hrest, hleft, hpos, hlsym, hrsym⟩ := reuseRefund_ok net
      obtain ⟨hrest', hleft', hpos', _, _⟩ := reuseRefund_ok cpu
      have hrow : view RefundRequest.weights refunds from' = r.weights :=
        view_of_find row
      exact ⟨_, refundBooked_settle refunds req _ owner ⟨hleft, hleft'⟩
        (by rw [hrow]; exact hrest) (by rw [hrow]; exact hrest') hpos hpos'
        hrsym hlsym, fun ht hn hc => (hgiven books ht hn hc).elim⟩

/-- What the source of a stake is asked to pay. -/
def stakePayment (source : Name) (x : Asset) : List InlineAction :=
  if 0 < x.amount then
    [⟨[⟨source, activePermission⟩],
      .transfer source stakeAccount x "stake bandwidth"⟩]
  else []

/-- The refund of a change of stake touches the refunds, their schedule and the
outbox. -/
theorem settleRefund_form {ctx : Ctx} {s s' : SysState}
    {source owner receiver : Name} {dn dc : Asset} {transfer : Bool}
    (h : settleRefund ctx s source owner receiver dn dc transfer = .ok s') :
    ∃ refunds deferred outbox, s' = { s with refunds, deferred, outbox } := by
  unfold settleRefund at h
  split at h
  · cases h
    exact ⟨_, _, _, rfl⟩
  · simp only [bind_eq_ok] at h
    obtain ⟨_, _, _, _, h⟩ := h
    split at h
    · cases h
      exact ⟨_, _, _, rfl⟩
    · cases h
      exact ⟨_, _, _, rfl⟩

/-- The stake account pays for nothing and has no refund; every other source
pays what its refund does not cover. -/
theorem settleRefund_ok {ctx : Ctx} {s s' : SysState}
    {source owner receiver : Name} {dn dc : Asset} {transfer : Bool}
    (h : settleRefund ctx s source owner receiver dn dc transfer = .ok s')
    (hsign : SameSign dn.amount dc.amount)
    (hcore : s.market.coreSymbol = .ok dn.symbol)
    (hsym : dc.symbol = dn.symbol) :
    ∃ (ρ : ℤ × ℤ) (refunds : KeyedTable RefundRequest.owner)
      (deferred : KeyedTable DeferredRefund.senderId)
      (outbox : List InlineAction),
      s' = { s with refunds, deferred, outbox } ∧
      view RefundRequest.weights refunds =
        view RefundRequest.weights s.refunds + Pi.single owner ρ ∧
      (∀ k row, refunds.find k = some row → s.refunds.find k = some row ∨
        0 ≤ row.weights ∧ row.isEmpty = false ∧
          row.netAmount.symbol = dn.symbol) ∧
      ((source = stakeAccount ∧ ρ = 0 ∧ outbox = s.outbox) ∨
        source ≠ stakeAccount ∧ 0 ≤ dn.amount + dc.amount + (ρ.1 + ρ.2) ∧
        outbox = s.outbox ++ stakePayment source
          ⟨dn.amount + dc.amount + (ρ.1 + ρ.2), dn.symbol⟩) ∧
      (transfer = true → 0 ≤ dn.amount → 0 ≤ dc.amount → ρ = 0) := by
  unfold settleRefund at h
  split at h
  · next hsource =>
      cases h
      exact ⟨0, s.refunds, s.deferred, s.outbox, rfl, by simp,
        fun k row hrow => .inl hrow, .inl ⟨hsource.symm, rfl, rfl⟩,
        fun _ _ _ => rfl⟩
  · next hsource =>
      simp only [bind_eq_ok, Asset.add_eq_ok] at h
      obtain ⟨u, hu, amount, ⟨_, _, hamount⟩, h⟩ := h
      obtain ⟨ρ, hbooked, hgiven⟩ := updateRefund_ok hsign hcore hsym hu
      have hval : amount = ⟨dn.amount + dc.amount + (ρ.1 + ρ.2),
          dn.symbol⟩ := by
        rw [hamount, hbooked.net, hbooked.cpu, hbooked.symbol]
        congr 1
        ring
      have hnonneg : 0 ≤ dn.amount + dc.amount + (ρ.1 + ρ.2) := by
        have h₁ := hbooked.net_nonneg
        have h₂ := hbooked.cpu_nonneg
        rw [hbooked.net] at h₁
        rw [hbooked.cpu] at h₂
        omega
      refine ⟨ρ, u.refunds, scheduleRefund ctx s.deferred owner
        u.needDeferredTrx, s.outbox ++ stakePayment source amount, ?_,
        hbooked.booked, hbooked.rows,
        .inr ⟨fun hs => hsource hs.symm, hnonneg, by rw [hval]⟩, hgiven⟩
      unfold stakePayment
      split at h
      · next hpos =>
          cases h
          rw [if_pos hpos]
          rfl
      · next hpos =>
          cases h
          rw [if_neg hpos, List.append_nil]

/-! ## The voting power -/

/-- The stakes of the voters fit the 64 bits they are stored in. -/
def StakedInRange (f : Name → ℤ) : Prop := ∀ v, 0 ≤ f v ∧ f v < 2 ^ 63

/-- Booking a stake that does not come out negative adds it. -/
private theorem bookStake_ok {e e' : Election} {voterName : Name}
    {total : Asset} {voter : VoterInfo} (hrange : StakedInRange e.staked)
    (htotal : Asset.InRange total.amount)
    (h : e.bookStake voterName total = .ok (e', voter))
    (hpos : 0 ≤ voter.staked) :
    e'.staked = e.staked + Pi.single voterName total.amount ∧
    StakedInRange e'.staked ∧ e'.producers = e.producers ∧
    e'.voters.find voterName = some voter := by
  have hmax := htotal
  unfold Asset.InRange Asset.maxAmount at hmax
  have hbooked : e'.producers = e.producers ∧ voter.owner = voterName ∧
      e'.voters = e.voters.put voter ∧
      voter.staked = e.staked voterName + total.amount ∧
      voter.staked < 2 ^ 63 := by
    unfold Election.bookStake at h
    split at h
    · next hnone =>
        simp only [bind_eq_ok, emplace_eq_ok, pure_eq_ok, Prod.mk.injEq] at h
        obtain ⟨_, ⟨_, rfl⟩, rfl, rfl⟩ := h
        have hzero : e.staked voterName = 0 := view_of_none hnone
        refine ⟨rfl, rfl, rfl, ?_, ?_⟩
        · rw [hzero, zero_add]
        · dsimp only
          omega
    · next row hrow =>
        simp only [bind_eq_ok, modify_eq_ok, pure_eq_ok, Prod.mk.injEq] at h
        obtain ⟨_, ⟨_, _, hkey, rfl⟩, rfl, rfl⟩ := h
        have hold : e.staked voterName = row.staked := view_of_find hrow
        obtain ⟨hlo, hhi⟩ := hrange voterName
        rw [hold] at hlo hhi ⊢
        have hexact : i64 (row.staked + total.amount) =
            row.staked + total.amount :=
          i64_add_of_nonneg hlo hhi (by omega) (by omega) hpos
        refine ⟨rfl, hkey, rfl, hexact, ?_⟩
        dsimp only
        unfold i64
        have := Int.bmod_lt (x := row.staked + total.amount)
          (m := 2 ^ 64) (by decide)
        omega
  obtain ⟨hprod, howner, hvoters, hstaked, hlt⟩ := hbooked
  have hview : e'.staked = e.staked + Pi.single voterName total.amount := by
    unfold Election.staked at hstaked ⊢
    rw [hvoters, view_put _ _ howner, hstaked, add_sub_cancel_left]
  refine ⟨hview, fun v => ?_, hprod, ?_⟩
  · rw [hview, add_single_apply]
    by_cases hv : v = voterName
    · subst hv
      rw [if_pos rfl, ← hstaked]
      exact ⟨hpos, hlt⟩
    · rw [if_neg hv, add_zero]
      exact hrange v
  · rw [hvoters, KeyedTable.find_put_of_key howner, if_pos rfl]

/-- The voting power moves by the change of stake; of the producers only the
votes move. -/
theorem updateVotingPower_ok {env : Env} {ctx : Ctx} {e e' : Election}
    {voterName : Name} {total : Asset} (hrange : StakedInRange e.staked)
    (htotal : Asset.InRange total.amount)
    (h : e.updateVotingPower env ctx voterName total = .ok e') :
    e'.staked = e.staked + Pi.single voterName total.amount ∧
    StakedInRange e'.staked ∧
    SameBy ProducerInfo.record e.producers e'.producers := by
  simp only [Election.updateVotingPower, bind_eq_ok, check_eq_ok,
    exists_const] at h
  obtain ⟨⟨e₁, voter⟩, hbook, hpos, _, _, h⟩ := h
  obtain ⟨hstaked, hrange', hprod, _⟩ :=
    bookStake_ok hrange htotal hbook hpos
  split at h
  · have hrec := Election.updateVotes_record h
    rw [hrec.staked_eq]
    exact ⟨hstaked, hrange', hprod ▸ hrec.producers⟩
  · cases h
    exact ⟨hstaked, hrange', hprod ▸ .refl _⟩

/-! ## The whole change -/

/-- The stake of `owner` with `receiver` has moved by `dn` and `dc`, the
refund of `owner` by `ρ`; `source` pays the rest.  Nothing else that belongs
to anybody has moved. -/
structure StakeChange (s s' : SysState) (source owner receiver : Name)
    (dn dc : Asset) (ρ : ℤ × ℤ) : Prop where
  delegated : s'.delegated = s.delegated +
    cell owner receiver (dn.amount, dc.amount)
  delband : ∀ a k row, (s'.delband a).find k = some row →
    (s.delband a).find k = some row ∨ 0 ≤ row.weights ∧ row.isEmpty = false
  totals : s'.totals = s.totals + Pi.single receiver (dn.amount, dc.amount)
  totals_nonneg : 0 ≤ s'.totals receiver
  userres : ∃ tot : UserResources, tot.owner = receiver ∧
    tot.memBytes = s.memBytes receiver ∧ ∀ k, s'.userres.find k =
      if k = receiver then (if tot.isEmpty then none else some tot)
      else s.userres.find k
  memBytes : s'.memBytes = s.memBytes
  refunded : s'.refunded = s.refunded + Pi.single owner ρ
  refunds : ∀ k row, s'.refunds.find k = some row →
    s.refunds.find k = some row ∨
    0 ≤ row.weights ∧ row.isEmpty = false ∧ row.netAmount.symbol = dn.symbol
  payment : (source = stakeAccount ∧ ρ = 0 ∧ s'.outbox = s.outbox) ∨
    source ≠ stakeAccount ∧ 0 ≤ dn.amount + dc.amount + (ρ.1 + ρ.2) ∧
      s'.outbox = s.outbox ++ stakePayment source
        ⟨dn.amount + dc.amount + (ρ.1 + ρ.2), dn.symbol⟩
  gift : source ≠ owner → 0 ≤ dn.amount → 0 ≤ dc.amount → ρ = 0
  staked : s'.staked = s.staked + Pi.single owner (dn.amount + dc.amount)
  stakedInRange : StakedInRange s'.staked
  market : s'.market = s.market
  accountsact : s'.accountsact = s.accountsact
  producers : SameBy ProducerInfo.record s.election.producers
    s'.election.producers

/-- Deltas that pass the check of `changebw` have one sign. -/
private theorem sameSign_of_abs {dn dc : ℤ}
    (h : max |dn| |dc| ≤ |dn + dc|) : SameSign dn dc := by
  unfold SameSign
  have h₁ := (le_max_left |dn| |dc|).trans h
  have h₂ := (le_max_right |dn| |dc|).trans h
  rcases abs_cases dn with ha | ha <;> rcases abs_cases dc with hb | hb <;>
    rcases abs_cases (dn + dc) with hc | hc <;> omega

private theorem delegated_update {s : SysState} {a k : Name}
    {tbl : KeyedTable DelegatedBandwidth.to'} {x : ℤ × ℤ}
    (h : view DelegatedBandwidth.weights tbl =
      view DelegatedBandwidth.weights (s.delband a) + Pi.single k x) :
    (fun b => view DelegatedBandwidth.weights
      (Function.update s.delband a tbl b)) = s.delegated + cell a k x := by
  funext b
  by_cases hb : b = a
  · subst hb
    rw [Function.update_self, h, Pi.add_apply, cell, Pi.single_eq_same]
    rfl
  · rw [Function.update_of_ne hb, Pi.add_apply, cell,
      Pi.single_eq_of_ne hb, add_zero]
    rfl

theorem updateLimits_ok (s : SysState) (receiver : Name)
    (tot : UserResources) :
    ∃ limits, updateLimits s receiver tot = { s with limits } := by
  unfold updateLimits
  dsimp only
  split
  · exact ⟨s.limits, rfl⟩
  · exact ⟨_, rfl⟩

/-- `changebw`, taken apart: the stake is booked with the owner and with the
receiver, the refund is settled and the owner's vote is updated. -/
theorem changebw_parts {env : Env} {ctx : Ctx} {s s' : SysState}
    {from' receiver owner : Name} {dn dc : Asset} {transfer : Bool}
    (howner : (if transfer then receiver else from') = owner)
    (h : changebw env ctx s from' receiver dn dc transfer = .ok s') :
    ctx.HasAuth from' ∧ SameSign dn.amount dc.amount ∧
    dc.symbol = dn.symbol ∧ Asset.InRange (dn.amount + dc.amount) ∧
    ∃ delTbl userres tot s₁ election,
      updateDelband (s.delband owner) owner receiver dn dc = .ok delTbl ∧
      updateTotals s.userres receiver dn dc = .ok (userres, tot) ∧
      settleRefund ctx
        (updateLimits { s with
          delband := Function.update s.delband owner delTbl
          userres } receiver tot)
        from' owner receiver dn dc transfer = .ok s₁ ∧
      s₁.election.updateVotingPower env ctx owner
        { dn with amount := dn.amount + dc.amount } = .ok election ∧
      s' = { s₁ with election } := by
  simp only [changebw, bind_eq_ok, Ctx.requireAuth_eq_ok, check_eq_ok,
    Asset.add_eq_ok, pure_eq_ok, exists_const] at h
  obtain ⟨hauth, _, total, ⟨hsym, htotal, rfl⟩, habs, delTbl, hdel,
    ⟨userres, tot⟩, htot, s₁, hsettle, e₁, hpower, rfl⟩ := h
  rw [howner] at hdel hsettle hpower
  exact ⟨hauth, sameSign_of_abs habs, hsym, htotal, delTbl, userres, tot, s₁,
    e₁, hdel, htot, hsettle, hpower, rfl⟩

/-- **What `changebw` does.** -/
theorem changebw_ok {env : Env} {ctx : Ctx} {s s' : SysState}
    {from' receiver : Name} {dn dc : Asset} {transfer : Bool}
    (hrange : StakedInRange s.staked)
    (hcore : s.market.coreSymbol = .ok dn.symbol)
    (h : changebw env ctx s from' receiver dn dc transfer = .ok s') :
    ctx.HasAuth from' ∧ SameSign dn.amount dc.amount ∧
    ∃ ρ, StakeChange s s' from' (if transfer then receiver else from')
      receiver dn dc ρ := by
  generalize howner : (if transfer then receiver else from') = owner
  obtain ⟨hauth, hsign, hsym, htotal, delTbl, userres, tot, s₁, e₁, hdel, htot,
    hsettle, hpower, rfl⟩ := changebw_parts howner h
  refine ⟨hauth, hsign, ?_⟩
  obtain ⟨hdelview, hdelrows⟩ := updateDelband_ok hdel
  obtain ⟨htotowner, htotmem, htotview, hmemview, htotnonneg, htotfind⟩ :=
    updateTotals_ok htot
  obtain ⟨limits, hlimits⟩ := updateLimits_ok
    { s with delband := Function.update s.delband owner delTbl, userres }
    receiver tot
  rw [hlimits] at hsettle
  have hdelegated := delegated_update hdelview
  have hrows : ∀ a k row,
      (Function.update s.delband owner delTbl a).find k = some row →
      (s.delband a).find k = some row ∨
        0 ≤ row.weights ∧ row.isEmpty = false := by
    intro a k row hrow
    by_cases ha : a = owner
    · subst ha
      rw [Function.update_self] at hrow
      exact hdelrows k row hrow
    · rw [Function.update_of_ne ha] at hrow
      exact .inl hrow
  obtain ⟨ρ, refunds, deferred, outbox, rfl, hrefunds, hrefrows, hpayment,
    hgift⟩ := settleRefund_ok hsettle hsign hcore hsym
  obtain ⟨hstaked, hrange', hproducers⟩ := updateVotingPower_ok hrange htotal
    hpower
  exact ⟨ρ,
    { delegated := hdelegated
      delband := hrows
      totals := htotview
      totals_nonneg := htotnonneg
      userres := ⟨tot, htotowner, htotmem, htotfind⟩
      memBytes := hmemview
      refunded := hrefunds
      refunds := hrefrows
      payment := hpayment
      gift := by
        intro hne
        refine hgift ?_
        by_contra ht
        rw [if_neg ht] at howner
        exact hne howner
      staked := hstaked
      stakedInRange := hrange'
      market := rfl
      accountsact := rfl
      producers := hproducers }⟩

end System

end Inery
