import IneryContracts.HostFrames

/-!
# What the actions do to a refund

The refund of an account is its row of `refunds` together with the
transaction that is scheduled to pay it.  Seen from one account, every action
takes a few steps on these two: a change of stake renews, closes or cancels
the refund of the owner of the stake and keeps all others.
-/

namespace Inery

open GuardedStep LedgerVector LabelledRun MachineInt

/-- The refund of one account: its row, and what is scheduled to pay it. -/
structure Refunding where
  row : Option RefundRequest
  scheduled : Option DeferredRefund

/-- The refund of an account. -/
def SysState.refunding (s : SysState) (k : Name) : Refunding :=
  ⟨s.refunds.find k, s.deferred.find k⟩

theorem SysState.refunding_congr {s s' : SysState}
    (hrefunds : s'.refunds = s.refunds) (hdeferred : s'.deferred = s.deferred)
    (k : Name) : s'.refunding k = s.refunding k := by
  rw [refunding, hrefunds, hdeferred, refunding]

/-- What can happen to the refund of an account. -/
inductive RefundMove
  /-- Nothing. -/
  | kept
  /-- Nothing is scheduled any more; the row is not touched. -/
  | cancelled
  /-- A row is written and its payment is scheduled anew. -/
  | renewed (unstaking : Bool)
  /-- Nothing is left of it. -/
  | closed
  /-- The row is paid out. -/
  | paid

/-- One step of the refund of `k`.  The time of a renewed row is that of the
call where something is unstaked, and that of the old row otherwise. -/
def RefundStep (ctx : Ctx) (k : Name) (p : Refunding) :
    RefundMove → Refunding → Prop
  | .kept, p' => p' = p
  | .cancelled, p' => p' = { p with scheduled := none }
  | .renewed unstaking, p' => k ≠ stakeAccount ∧ ∃ row,
      p' = ⟨some row, some
        ⟨k, ctx.currentTimePoint + refundDelaySec * 1000000⟩⟩ ∧
      row.cpuAmount.symbol = row.netAmount.symbol ∧
      if unstaking then row.requestTime = ctx.secSinceEpoch
      else ∃ old, p.row = some old ∧ row.requestTime = old.requestTime
  | .closed, p' => p' = ⟨none, none⟩
  | .paid, p' => ∃ row, p.row = some row ∧
      (row.requestTime + refundDelaySec) * 1000000 ≤ ctx.currentTimePoint ∧
      p' = { p with row := none }

/-- The step that a change of stake takes on the refund of `k`. -/
inductive Settles (source owner receiver : Name) (dn dc : ℤ) (transfer : Bool)
    (k : Name) : RefundMove → Prop
  | kept (h : source = stakeAccount ∨ k ≠ owner) :
      Settles source owner receiver dn dc transfer k .kept
  | renewed (hsource : source ≠ stakeAccount) (hk : k = owner)
      (h : BooksRefund owner receiver dn dc transfer) :
      Settles source owner receiver dn dc transfer k
        (.renewed (decide (dn < 0 ∨ dc < 0)))
  | closed (hsource : source ≠ stakeAccount) (hk : k = owner)
      (h : BooksRefund owner receiver dn dc transfer) :
      Settles source owner receiver dn dc transfer k .closed
  | cancelled (hsource : source ≠ stakeAccount) (hk : k = owner)
      (h : ¬ BooksRefund owner receiver dn dc transfer) :
      Settles source owner receiver dn dc transfer k .cancelled

namespace System

variable {env : Env} {ctx : Ctx} {t : TokenState} {s s' : SysState} {k : Name}

/-! ## Changes of stake -/

private theorem reuseRefund_symbol {amount balance left rest : Asset}
    (h : reuseRefund amount balance = .ok (left, rest)) :
    left.symbol = balance.symbol := by
  simp only [reuseRefund, bind_eq_ok, Asset.sub_eq_ok] at h
  obtain ⟨_, ⟨hsym, _, rfl⟩, h⟩ := h
  dsimp only at h
  split at h
  · cases h
    exact hsym.symm
  · cases h
    exact hsym.symm

private theorem startRefund_symbol {core : Symbol} {balance left rest : Asset}
    (hcore : balance.symbol = core)
    (h : startRefund core balance = .ok (left, rest)) :
    left.symbol = core := by
  unfold startRefund at h
  split at h
  · cases h
    exact hcore
  · simp only [bind_eq_ok, Asset.make_eq_ok, pure_eq_ok, Prod.mk.injEq] at h
    obtain ⟨_, ⟨_, _, rfl⟩, rfl, _⟩ := h
    rfl

/-- The row of the owner is written, dropped or left alone; a row that is
written has the time of the call if something is unstaked. -/
private theorem updateRefund_row {refunds : KeyedTable RefundRequest.owner}
    {core : Except Abort Symbol} {owner receiver : Name} {dn dc : Asset}
    {transfer : Bool} {u : RefundUpdate} (hcore : core = .ok dn.symbol)
    (hsym : dc.symbol = dn.symbol)
    (h : updateRefund ctx refunds core owner receiver dn dc transfer =
      .ok u) :
    (∀ j, j ≠ owner → u.refunds.find j = refunds.find j) ∧
    (¬ BooksRefund owner receiver dn.amount dc.amount transfer ∧
        u.refunds.find owner = refunds.find owner ∧
        u.needDeferredTrx = false ∨
      BooksRefund owner receiver dn.amount dc.amount transfer ∧
      (u.refunds.find owner = none ∧ u.needDeferredTrx = false ∨
      u.needDeferredTrx = true ∧ ∃ row, u.refunds.find owner = some row ∧
        row.cpuAmount.symbol = row.netAmount.symbol ∧
        if decide (dn.amount < 0 ∨ dc.amount < 0) then
          row.requestTime = ctx.secSinceEpoch
        else ∃ old, refunds.find owner = some old ∧
          row.requestTime = old.requestTime)) := by
  cases updateRefund_cases h with
  | apart books => exact ⟨fun _ _ => rfl, .inl ⟨books, rfl, rfl⟩⟩
  | absent books row => exact ⟨fun _ _ => rfl, .inr ⟨books, .inl ⟨row, rfl⟩⟩⟩
  | @started symbol left rest left' rest' books row unstaking found net cpu =>
      obtain rfl := Except.ok.inj (hcore.symm.trans found)
      have hleft := startRefund_symbol rfl net
      have hleft' := startRefund_symbol hsym cpu
      refine ⟨fun j hj => ?_, .inr ⟨books, .inr
        ⟨rfl, ⟨owner, ctx.secSinceEpoch, left, left'⟩, ?_, ?_, ?_⟩⟩⟩
      · dsimp only
        rw [KeyedTable.find_put_of_key (k := owner) rfl, if_neg hj]
      · dsimp only
        rw [KeyedTable.find_put_of_key (k := owner) rfl, if_pos rfl]
      · exact hleft'.trans hleft.symm
      · rw [decide_eq_true unstaking]
        rfl
  | @reused r req rest rest' books row key net cpu time =>
      refine ⟨fun j hj => ?_, .inr ⟨books, ?_⟩⟩
      · dsimp only
        rw [KeyedTable.find_settle _ key, if_neg hj]
      · dsimp only
        rw [KeyedTable.find_settle _ key, if_pos rfl]
        by_cases hempty : req.isEmpty = true
        · exact .inl ⟨if_pos hempty, by rw [hempty]; rfl⟩
        · refine .inr ⟨by simpa using hempty, req, if_neg hempty, ?_, ?_⟩
          · exact (reuseRefund_symbol cpu).trans
              (hsym.trans (reuseRefund_symbol net).symm)
          · rw [time]
            simp only [decide_eq_true_eq]
            split
            · rfl
            · exact ⟨r, row, rfl⟩

/-- A refund is scheduled for its owner, or not at all. -/
private theorem scheduleRefund_find (ctx : Ctx)
    (deferred : KeyedTable DeferredRefund.senderId) (owner : Name) (need : Bool)
    (j : Name) : (scheduleRefund ctx deferred owner need).find j =
      if j = owner then (if need then
        some ⟨owner, ctx.currentTimePoint + refundDelaySec * 1000000⟩ else none)
      else deferred.find j := by
  unfold scheduleRefund
  cases need with
  | true =>
      simp only [if_true]
      rw [KeyedTable.find_put_of_key (k := owner) rfl, KeyedTable.find_erase]
      by_cases hj : j = owner
      · rw [if_pos hj, if_pos hj]
      · rw [if_neg hj, if_neg hj, if_neg hj]
  | false => exact KeyedTable.find_erase _ _ _

/-- The refund of a change of stake, as a step.  A stake that is given away
is not taken back in the same call. -/
theorem settleRefund_refunding {source owner receiver : Name} {dn dc : Asset}
    {transfer : Bool} (hcore : s.market.coreSymbol = .ok dn.symbol)
    (hsym : dc.symbol = dn.symbol)
    (hgift : owner = source ∨
      transfer = true ∧ 0 ≤ dn.amount + dc.amount)
    (h : settleRefund ctx s source owner receiver dn dc transfer = .ok s')
    (k : Name) :
    ∃ m, Settles source owner receiver dn.amount dc.amount transfer k m ∧
      RefundStep ctx k (s.refunding k) m (s'.refunding k) := by
  unfold settleRefund at h
  split at h
  · next hsource =>
      cases h
      exact ⟨.kept, .kept (.inl hsource.symm), rfl⟩
  · next hsource =>
      simp only [bind_eq_ok] at h
      obtain ⟨u, hu, _, _, h⟩ := h
      have hs' : s'.refunding k = ⟨u.refunds.find k,
          (scheduleRefund ctx s.deferred owner u.needDeferredTrx).find k⟩ := by
        split at h
        · cases h
          rfl
        · cases h
          rfl
      obtain ⟨hothers, hrow⟩ := updateRefund_row hcore hsym hu
      rw [hs', scheduleRefund_find]
      by_cases hk : k = owner
      · subst hk
        rw [if_pos rfl]
        have hstake : source ≠ stakeAccount := fun heq => hsource heq.symm
        rcases hrow with ⟨hnot, hfound, hneed⟩ | ⟨hbooks, hrow⟩
        · refine ⟨.cancelled, .cancelled hstake rfl hnot, ?_⟩
          rw [hfound, hneed]
          rfl
        have hown : k = source := by
          refine hgift.resolve_right (fun hgiven => ?_)
          rcases hbooks with ⟨htransfer, _⟩ | hneg
          · rw [hgiven.1] at htransfer
            cases htransfer
          · omega
        rcases hrow with ⟨hnone, hneed⟩ | ⟨hneed, row, hfound, hsame, htime⟩
        · refine ⟨.closed, .closed hstake rfl hbooks, ?_⟩
          rw [hnone, hneed]
          rfl
        · refine ⟨_, .renewed hstake rfl hbooks, ?_, row, ?_, hsame, htime⟩
          · rwa [hown]
          · rw [hfound, hneed]
            rfl
      · refine ⟨.kept, .kept (.inr hk), ?_⟩
        rw [hothers k hk, if_neg hk]
        rfl

theorem changebw_refunding {from' receiver : Name} {dn dc : Asset}
    {transfer : Bool} (hcore : s.market.coreSymbol = .ok dn.symbol)
    (hgift : transfer = true → 0 ≤ dn.amount + dc.amount)
    (h : changebw env ctx s from' receiver dn dc transfer = .ok s')
    (k : Name) :
    ∃ m, Settles from' (if transfer then receiver else from') receiver
        dn.amount dc.amount transfer k m ∧
      RefundStep ctx k (s.refunding k) m (s'.refunding k) := by
  obtain ⟨_, _, hsym, _, delTbl, userres, tot, s₁, election, _, _, hsettle, _,
    rfl⟩ := changebw_parts rfl h
  obtain ⟨limits, hlimits⟩ := updateLimits_ok
    { s with
      delband := Function.update s.delband (if transfer then receiver
        else from') delTbl
      userres } receiver tot
  rw [hlimits] at hsettle
  have hown : (if transfer then receiver else from') = from' ∨
      transfer = true ∧ 0 ≤ dn.amount + dc.amount := by
    cases transfer with
    | false => exact .inl rfl
    | true => exact .inr ⟨rfl, hgift rfl⟩
  obtain ⟨m, hm, hstep⟩ :=
    settleRefund_refunding (by exact hcore) hsym hown hsettle k
  exact ⟨m, hm, hstep⟩

end System

/-! ## Actions and events -/

/-- The step that staking for `receiver` takes on the refund of `k`. -/
def Delegates (from' receiver : Name) (transfer : Bool) (k : Name)
    (m : RefundMove) : Prop :=
  ∃ dn dc, 0 ≤ dn ∧ 0 ≤ dc ∧
    Settles from' (if transfer then receiver else from') receiver dn dc
      transfer k m

/-- The step that taking stake back takes on the refund of `k`. -/
def Undelegates (from' receiver k : Name) (m : RefundMove) : Prop :=
  ∃ dn dc, dn ≤ 0 ∧ dc ≤ 0 ∧ dn + dc < 0 ∧
    Settles from' from' receiver dn dc false k m

/-- The stake of `owner` is for somebody else, or given away by somebody
else. -/
def Sidesteps (from' receiver : Name) (transfer : Bool) (owner : Name) : Prop :=
  from' ≠ stakeAccount ∧ owner = (if transfer then receiver else from') ∧
    (transfer = true ∨ from' ≠ receiver)

section Stakes

variable {from' receiver k : Name} {transfer : Bool} {m : RefundMove}

/-- The refund is cancelled by exactly the stakes that sidestep it. -/
theorem Delegates.eq_cancelled_iff (h : Delegates from' receiver transfer k m) :
    m = .cancelled ↔ Sidesteps from' receiver transfer k := by
  obtain ⟨dn, dc, hdn, hdc, hsettles⟩ := h
  have hbooks : ¬ BooksRefund (if transfer then receiver else from') receiver
      dn dc transfer ↔ (transfer = true ∨ from' ≠ receiver) := by
    cases transfer with
    | false =>
        simp only [BooksRefund, true_and, Bool.false_eq_true, if_false,
          false_or, not_or]
        exact ⟨fun hnot => hnot.1, fun hne => ⟨hne, by omega⟩⟩
    | true =>
        simp only [BooksRefund, Bool.true_eq_false, false_and, false_or,
          true_or, iff_true]
        omega
  cases hsettles with
  | kept hkept =>
      refine ⟨fun hm => (by cases hm), fun hside => ?_⟩
      rcases hkept with hsource | hk
      · exact absurd hsource hside.1
      · exact absurd hside.2.1 hk
  | renewed hsource hk hbooked =>
      exact ⟨fun hm => (by cases hm),
        fun hside => absurd hbooked (hbooks.mpr hside.2.2)⟩
  | closed hsource hk hbooked =>
      exact ⟨fun hm => (by cases hm),
        fun hside => absurd hbooked (hbooks.mpr hside.2.2)⟩
  | cancelled hsource hk hnot =>
      exact ⟨fun _ => ⟨hsource, hk, hbooks.mp hnot⟩, fun _ => rfl⟩

/-- What is taken back is never cancelled; with the refund of the owner it is
booked at once. -/
theorem Undelegates.cases (h : Undelegates from' receiver k m) :
    m = .kept ∧ (from' = stakeAccount ∨ k ≠ from') ∨
    m = .renewed true ∨ m = .closed := by
  obtain ⟨dn, dc, hdn, hdc, hneg, hsettles⟩ := h
  cases hsettles with
  | kept hkept => exact .inl ⟨rfl, hkept⟩
  | renewed hsource hk hbooked =>
      have hun : dn < 0 ∨ dc < 0 := by omega
      exact .inr (.inl (by rw [decide_eq_true hun]))
  | closed hsource hk hbooked => exact .inr (.inr rfl)
  | cancelled hsource hk hnot => exact absurd (.inr hneg) hnot

end Stakes

/-- The steps that an action takes on the refund of `k`. -/
def SysAction.RefundMoves (k : Name) : SysAction → List RefundMove → Prop
  | delegatebw from' receiver _ _ transfer, ms =>
      ∃ m, Delegates from' receiver transfer k m ∧ ms = [m]
  | undelegatebw from' receiver _ _, ms =>
      ∃ m, Undelegates from' receiver k m ∧ ms = [m]
  | buyresources payer receiver _, ms =>
      ∃ m, Delegates payer receiver false k m ∧ ms = [m]
  | buymembytes payer receiver _, ms =>
      ∃ m m', Delegates payer receiver false k m ∧
        Delegates payer receiver false k m' ∧ ms = [m, m']
  | sellres account _, ms =>
      ∃ m, Undelegates account account k m ∧ ms = [m]
  | refund owner, ms => ms = [if k = owner then .paid else .kept]
  | _, ms => ms = [.kept]

/-- The steps that an event takes on the refund of `k`.  A scheduled refund is
off the list when it runs. -/
def Event.RefundMoves (k : Name) : Event → List RefundMove → Prop
  | token _ _, ms => ms = [.kept]
  | system _ a, ms => a.RefundMoves k ms
  | deferred _ _ owner, ms =>
      if k = owner then ms = [.cancelled] ∨ ms = [.cancelled, .paid]
      else ms = [.kept]

namespace System

variable {env : Env} {ctx : Ctx} {t : TokenState} {s s' : SysState}

theorem delegatebw_refunding {from' receiver : Name} {net cpu : Asset}
    {transfer : Bool}
    (h : delegatebw env ctx s from' receiver net cpu transfer = .ok s')
    (k : Name) :
    ∃ m, Delegates from' receiver transfer k m ∧
      RefundStep ctx k (s.refunding k) m (s'.refunding k) := by
  obtain ⟨hcore, _, hnet, hcpu, _, hchange⟩ := delegatebw_calls h
  obtain ⟨m, hm, hstep⟩ :=
    changebw_refunding hcore (fun _ => add_nonneg hnet hcpu) hchange k
  exact ⟨m, ⟨_, _, hnet, hcpu, hm⟩, hstep⟩

theorem undelegatebw_refunding {from' receiver : Name} {net cpu : Asset}
    (h : undelegatebw env ctx s from' receiver net cpu = .ok s') (k : Name) :
    ∃ m, Undelegates from' receiver k m ∧
      RefundStep ctx k (s.refunding k) m (s'.refunding k) := by
  obtain ⟨hcore, _, hnet, hcpu, hpos, hchange⟩ := undelegatebw_calls h
  have hneg : s.market.coreSymbol = .ok net.neg.symbol := hcore
  obtain ⟨m, hm, hstep⟩ :=
    changebw_refunding hneg (fun htrue => by cases htrue) hchange k
  have hsum : cpu.amount + net.amount ≠ 0 := by
    intro hzero
    rw [hzero] at hpos
    exact absurd hpos (by decide)
  refine ⟨m, ⟨_, _, ?_, ?_, ?_, hm⟩, hstep⟩
  · exact neg_nonpos.mpr hnet
  · exact neg_nonpos.mpr hcpu
  · show -net.amount + -cpu.amount < 0
    omega

theorem limitTraded_refunding (s : SysState) (row : UserResources)
    (k : Name) : (limitTraded s row).refunding k = s.refunding k := by
  obtain ⟨limits, h⟩ := limitTraded_ok s row
  rw [h]
  rfl

theorem buyresources_refunding {payer receiver : Name} {quant : Asset}
    (h : buyresources env ctx s payer receiver quant = .ok s') (k : Name) :
    ∃ m, Delegates payer receiver false k m ∧
      RefundStep ctx k (s.refunding k) m (s'.refunding k) := by
  obtain ⟨_, _, _, _, _, _, res, _, s₁, _, _, _, _, _, hdel, rfl⟩ :=
    buyresources_calls h
  rw [limitTraded_refunding]
  exact delegatebw_refunding hdel k

/-- **What an action does to the refund of an account.** -/
theorem apply_refunding {a : SysAction} (h : apply env ctx t s a = .ok s')
    (k : Name) :
    ∃ ms, a.RefundMoves k ms ∧
      Run (RefundStep ctx k) (s.refunding k) ms (s'.refunding k) := by
  have hkept : s'.refunding k = s.refunding k → a.RefundMoves k [.kept] →
      ∃ ms, a.RefundMoves k ms ∧
        Run (RefundStep ctx k) (s.refunding k) ms (s'.refunding k) :=
    fun hsame ha => ⟨_, ha, Run.single hsame⟩
  have hquiet : a.Quiet → s'.refunding k = s.refunding k := fun ha =>
    have hsame := apply_quiet ha h
    SysState.refunding_congr hsame.refunds hsame.deferred k
  have hlimit : ∀ x, a.SetsOneLimit x → s'.refunding k = s.refunding k := by
    intro x hx
    obtain ⟨_, _, _, _, _, rfl⟩ := apply_setsOneLimit hx h
    rfl
  cases a with
  | delegatebw from' receiver net cpu transfer =>
      obtain ⟨m, hm, hstep⟩ := delegatebw_refunding h k
      exact ⟨_, ⟨m, hm, rfl⟩, Run.single hstep⟩
  | undelegatebw from' receiver net cpu =>
      obtain ⟨m, hm, hstep⟩ := undelegatebw_refunding h k
      exact ⟨_, ⟨m, hm, rfl⟩, Run.single hstep⟩
  | buyresources payer receiver quant =>
      obtain ⟨m, hm, hstep⟩ := buyresources_refunding h k
      exact ⟨_, ⟨m, hm, rfl⟩, Run.single hstep⟩
  | buymembytes payer receiver bytes =>
      obtain ⟨_, _, _, _, hbuy, hdel⟩ := buymembytes_ok h
      obtain ⟨m, hm, hstep⟩ := buyresources_refunding hbuy k
      obtain ⟨m', hm', hstep'⟩ := delegatebw_refunding hdel k
      exact ⟨_, ⟨m, m', hm, hm', rfl⟩,
        (Run.single hstep).append (Run.single hstep')⟩
  | sellres account bytes =>
      obtain ⟨_, _, row, _, _, _, s₁, _, _, _, _, _, hund, rfl⟩ :=
        sellres_calls h
      obtain ⟨m, hm, hstep⟩ := undelegatebw_refunding hund k
      refine ⟨_, ⟨m, hm, rfl⟩, Run.single ?_⟩
      rw [← limitTraded_refunding s₁
        { row with memBytes := i64 (row.memBytes - bytes) }] at hstep
      exact hstep
  | refund owner =>
      obtain ⟨_, req, hreq, _, hdue, rfl⟩ := refund_ok h
      refine ⟨_, rfl, Run.single ?_⟩
      by_cases hk : k = owner
      · subst hk
        rw [if_pos rfl]
        refine ⟨req, hreq, hdue, ?_⟩
        simp only [SysState.refunding, SysState.send, KeyedTable.find_erase,
          if_true]
      · rw [if_neg hk]
        simp only [RefundStep, SysState.refunding, SysState.send,
          KeyedTable.find_erase, if_neg hk]
  | setalimits account mem net cpu =>
      simp only [apply, setalimits, bind_eq_ok, pure_eq_ok] at h
      obtain ⟨_, _, _, _, _, _, rfl⟩ := h
      exact hkept rfl rfl
  | setacctmem account limit => exact hkept (hlimit account rfl) rfl
  | setacctnet account limit => exact hkept (hlimit account rfl) rfl
  | setacctcpu account limit => exact hkept (hlimit account rfl) rfl
  | newaccount creator newact =>
      simp only [apply, newaccount, bind_eq_ok, pure_eq_ok] at h
      obtain ⟨_, _, _, _, _, _, _, _, rfl⟩ := h
      exact hkept rfl rfl
  | init _ _ | onblock _ _ | regproducer _ _ _ _ | regproducer2 _ _ _ _
  | unregprod _ | setmem _ | setmemrate _ | makeprod _ _ _ | regproxy _ _
  | setparams _ | claimrewards _ | rmvproducer _ | setinflation _ _ _
  | setabi _ _ | privileged => exact hkept (hquiet trivial) rfl

end System

/-- **What an event does to the refund of an account.** -/
theorem Chain.step_refunding {env : Env} {c c' : Chain} {e : Event}
    (h : Step env c e c') (k : Name) :
    ∃ ms, e.RefundMoves k ms ∧
      Run (RefundStep e.ctx k) (c.sys.refunding k) ms (c'.sys.refunding k) := by
  obtain ⟨_, _, ⟨ctx, a, rfl, hsys, _⟩ | ⟨ctx, a, s, rfl, happly, _, hsys⟩ |
    ⟨slot, isAccount, owner, rfl, hcase⟩⟩ := step_cases h
  · rw [hsys]
    exact ⟨_, rfl, Run.single rfl⟩
  · obtain ⟨ms, hms, hrun⟩ := System.apply_refunding happly k
    rw [hsys]
    exact ⟨ms, hms, hrun⟩
  · have hdropped : (c.dropDeferred owner).sys.refunding k =
        if k = owner then { c.sys.refunding k with scheduled := none }
        else c.sys.refunding k := by
      by_cases hk : k = owner
      · simp [dropDeferred, SysState.refunding, KeyedTable.find_erase, hk]
      · simp [dropDeferred, SysState.refunding, KeyedTable.find_erase, hk]
    have hfirst : k = owner → RefundStep (Event.deferred slot isAccount
        owner).ctx k (c.sys.refunding k) .cancelled
        ((c.dropDeferred owner).sys.refunding k) := fun hk => by
      rw [hdropped, if_pos hk]
      rfl
    rcases hcase with ⟨s, happly, _, hsys⟩ | ⟨_, hsys⟩
    · obtain ⟨ms, hms, hrun⟩ := System.apply_refunding happly k
      obtain rfl : ms = [if k = owner then .paid else .kept] := hms
      rw [hsys]
      by_cases hk : k = owner
      · rw [if_pos hk] at hrun
        exact ⟨[.cancelled, .paid], (if_pos hk).mpr (.inr rfl),
          (Run.single (hfirst hk)).append hrun⟩
      · rw [if_neg hk, hdropped, if_neg hk] at hrun
        exact ⟨[.kept], (if_neg hk).mpr rfl, hrun⟩
    · rw [hsys]
      by_cases hk : k = owner
      · exact ⟨[.cancelled], (if_pos hk).mpr (.inl rfl),
          Run.single (hfirst hk)⟩
      · refine ⟨[.kept], (if_neg hk).mpr rfl, Run.single ?_⟩
        rw [hdropped, if_neg hk]
        rfl

end Inery
