import IneryContracts.MemoryConservation
import Mathlib.Algebra.Order.Monoid.Prod

/-!
# The stake ledger

Three tables speak of the same stakes: the rows of the delegators, the totals
of the receivers and the stakes the voters vote with.  As ledgers they are one
matrix with its column and its row totals, and every move keeps them so.
-/

namespace Inery

open GuardedStep LedgerVector LabelledRun MachineInt

/-- The two weights of a stake together. -/
def weight (x : ℤ × ℤ) : ℤ := x.1 + x.2

/-- The sum of two pairs is taken part by part. -/
@[simp] theorem weight_add (x y : ℤ × ℤ) :
    weight (x + y) = weight x + weight y := by
  simp only [weight, Prod.fst_add, Prod.snd_add]
  ring

/-- Nothing is staked in a pair of zeros. -/
@[simp] theorem weight_zero : weight 0 = 0 := rfl

/-- Two parts that are not negative add up to no less. -/
theorem weight_nonneg {x : ℤ × ℤ} (h : 0 ≤ x) : 0 ≤ weight x :=
  add_nonneg h.1 h.2

/-- The stakes of a delegator, taken together. -/
noncomputable def SysState.staker (s : SysState) (a : Name) : ℤ :=
  weight (rowTotals s.delegated a)

/-- What is delegated is read off one table. -/
theorem SysState.delegated_congr {s s' : SysState}
    (h : s'.delband = s.delband) : s'.delegated = s.delegated := by
  funext a
  rw [delegated, h, delegated]

/-- What an account has staked is read off the same table. -/
theorem SysState.staker_congr {s s' : SysState}
    (h : s'.delband = s.delband) : s'.staker = s.staker := by
  funext a
  rw [staker, delegated_congr h, staker]

/-- The tables of stakes agree, and no row of them is empty or negative. -/
structure StakeLedger (s : SysState) : Prop where
  totals : s.totals = colTotals s.delegated
  staked : s.staked = s.staker
  delband : ∀ a k row, (s.delband a).find k = some row →
    0 ≤ row.weights ∧ row.isEmpty = false
  refunds : ∀ k row, s.refunds.find k = some row →
    0 ≤ row.weights ∧ row.isEmpty = false ∧
    s.market.coreSymbol = .ok row.netAmount.symbol

namespace StakeLedger

variable {s s' : SysState}

/-- No stake is negative. -/
theorem delegated_nonneg (h : StakeLedger s) (a k : Name) :
    0 ≤ s.delegated a k := by
  cases hrow : (s.delband a).find k with
  | none => exact (view_of_none hrow).ge
  | some row =>
      rw [show s.delegated a k = row.weights from view_of_find hrow]
      exact (h.delband a k row hrow).1

/-- No refund is negative. -/
theorem refunded_nonneg (h : StakeLedger s) (k : Name) :
    0 ≤ s.refunded k := by
  cases hrow : s.refunds.find k with
  | none => exact (view_of_none hrow).ge
  | some row =>
      rw [show s.refunded k = row.weights from view_of_find hrow]
      exact (h.refunds k row hrow).1

/-- The refunds are counted in the core token. -/
theorem refundsIn (h : StakeLedger s) {core : Symbol}
    (hcore : s.market.coreSymbol = .ok core) : RefundsIn s core :=
  fun k row hrow =>
    Except.ok.inj ((h.refunds k row hrow).2.2.symm.trans hcore)

/-- What an account has staked is not negative. -/
theorem staker_nonneg (h : StakeLedger s) (a : Name) : 0 ≤ s.staker a := by
  refine weight_nonneg ?_
  exact Finset.sum_nonneg (fun k _ => h.delegated_nonneg a k)

/-- What is staked for an account is not negative. -/
theorem totals_nonneg (h : StakeLedger s) (k : Name) : 0 ≤ s.totals k := by
  rw [h.totals]
  exact Finset.sum_nonneg (fun a _ => h.delegated_nonneg a k)

/-- A stake is part of the totals of its receiver. -/
theorem delegated_le_totals (h : StakeLedger s) (a k : Name) :
    s.delegated a k ≤ s.totals k := by
  rw [h.totals]
  exact Finset.single_le_sum (f := fun f => s.delegated f k)
    (fun f _ => h.delegated_nonneg f k) (Finset.mem_univ a)

/-- Where the resources are the same and the core token too. -/
private theorem congr (h : StakeLedger s) (htotals : s'.totals = s.totals)
    (hdelband : s'.delband = s.delband) (hrefunds : s'.refunds = s.refunds)
    (hstaked : s'.staked = s.staked)
    (hcore : ∀ core, s.market.coreSymbol = .ok core →
      s'.market.coreSymbol = .ok core) : StakeLedger s' where
  totals := by
    rw [htotals, h.totals, SysState.delegated_congr hdelband]
  staked := by
    rw [hstaked, h.staked, SysState.staker_congr hdelband]
  delband := hdelband ▸ h.delband
  refunds k row hrow := by
    rw [hrefunds] at hrow
    obtain ⟨hnonneg, hempty, hsym⟩ := h.refunds k row hrow
    exact ⟨hnonneg, hempty, hcore _ hsym⟩

/-- A change of stake moves one cell of the matrix, one row total and one
column total. -/
theorem staked_move {source owner receiver : Name} {dn dc : Asset}
    {ρ : ℤ × ℤ} (h : StakeLedger s)
    (hcore : s.market.coreSymbol = .ok dn.symbol)
    (hchange : System.StakeChange s s' source owner receiver dn dc ρ) :
    StakeLedger s' where
  totals := by
    rw [hchange.totals, hchange.delegated, colTotals_add_cell, h.totals]
  staked := by
    rw [hchange.staked, h.staked]
    funext a
    rw [SysState.staker, hchange.delegated, rowTotals_add_cell, Pi.add_apply,
      Pi.add_apply, weight_add, SysState.staker, Pi.single_apply,
      Pi.single_apply]
    congr 1
    split <;> rfl
  delband a k row hrow := by
    rcases hchange.delband a k row hrow with hold | hnew
    · exact h.delband a k row hold
    · exact hnew
  refunds k row hrow := by
    rw [hchange.market]
    rcases hchange.refunds k row hrow with hold | ⟨hnonneg, hempty, hsym⟩
    · exact h.refunds k row hold
    · exact ⟨hnonneg, hempty, hsym ▸ hcore⟩

end StakeLedger

/-- The core token stays what it is. -/
theorem Moved.coreSymbol {m : Move} {s s' : SysState} (hmove : Moved s m s')
    (h : Closed s ∨ ∃ core quote₀, Open core quote₀ s) {core : Symbol}
    (hcore : s.market.coreSymbol = .ok core) :
    s'.market.coreSymbol = .ok core := by
  rcases h with h | ⟨core', quote₀, hopen⟩
  · rw [Market.coreSymbol_ok, h.memmarket] at hcore
    cases hcore
  · have hopen' := hmove.open hopen
    obtain ⟨_, row, L, htrades⟩ := hopen
    obtain ⟨_, row', L', htrades'⟩ := hopen'
    rw [htrades'.hasRow.coreSymbol, ← hcore, htrades.hasRow.coreSymbol]

/-- **Every move keeps the stake ledger.** -/
theorem Moved.stakeLedger {m : Move} {s s' : SysState} (hmove : Moved s m s')
    (hmarket : Closed s ∨ ∃ core quote₀, Open core quote₀ s)
    (h : StakeLedger s) : StakeLedger s' := by
  have hcore : ∀ core, s.market.coreSymbol = .ok core →
      s'.market.coreSymbol = .ok core :=
    fun core => hmove.coreSymbol hmarket
  cases m with
  | rest =>
      refine h.congr ?_ hmove.delband hmove.refunds hmove.staked hcore
      rw [SysState.totals, hmove.userres, SysState.totals]
  | payroll =>
      refine h.congr ?_ hmove.1.delband hmove.1.refunds hmove.1.staked hcore
      rw [SysState.totals, hmove.1.userres, SysState.totals]
  | opened =>
      obtain ⟨_, _, rfl⟩ := hmove
      exact h.congr rfl rfl rfl rfl hcore
  | grown bytes =>
      obtain ⟨_, _, rfl⟩ := hmove
      exact h.congr rfl rfl rfl rfl hcore
  | rated =>
      obtain ⟨_, rfl⟩ := hmove
      exact h.congr rfl rfl rfl rfl hcore
  | bought payer receiver quant bytes =>
      obtain ⟨_, _, res, _, _, _, hcredit, rfl⟩ := hmove
      obtain ⟨howner, rfl, hweights, _⟩ := System.creditBytes_ok hcredit
      exact h.congr (view_put_same _ _ howner hweights) rfl rfl rfl hcore
  | sold account bytes tokens =>
      obtain ⟨row, _, hrow, _, _, _, rfl⟩ := hmove
      have howner : row.owner = account := KeyedTable.key_of_find hrow
      have hold : view UserResources.weights s.userres account = row.weights :=
        view_of_find hrow
      refine h.congr (view_put_same _ _ (k := account) ?_ ?_) rfl rfl rfl
        hcore
      · exact howner
      · exact hold.symm
  | paidOut account tokens =>
      obtain ⟨_, rfl⟩ := hmove
      exact h.congr rfl rfl rfl rfl hcore
  | staked source owner receiver dn dc ρ =>
      exact h.staked_move hmove.1 hmove.2
  | refunded owner =>
      obtain ⟨_, _, rfl⟩ := hmove
      refine ⟨h.totals, h.staked, h.delband, fun k row hrow => ?_⟩
      rw [KeyedTable.find_erase] at hrow
      split at hrow
      · cases hrow
      · exact h.refunds k row hrow
  | created account =>
      obtain ⟨_, zero, _, _, hnone, hzero, rfl⟩ := hmove
      have hold : view UserResources.weights s.userres account = 0 :=
        view_of_none hnone
      refine h.congr (view_put_same _ _ (k := account) rfl ?_) rfl rfl
        rfl hcore
      rw [hold]
      exact Prod.ext hzero hzero

namespace Chain

/-- The books of a reachable state. -/
structure Books (c : Chain) : Prop extends Settled c where
  market : Closed c.sys ∨ ∃ core quote₀, Open core quote₀ c.sys
  stakes : StakeLedger c.sys

/-- The books are in order at every move of a step. -/
theorem RanMoves.books {c c' : Chain} {e : Event} {ms : List Move}
    {s : SysState} (hran : RanMoves c e ms s c') (hc : c.Books) :
    (Closed s ∨ ∃ core quote₀, Open core quote₀ s) ∧ StakeLedger s := by
  refine hran.run.invariant (I := fun s =>
    (Closed s ∨ ∃ core quote₀, Open core quote₀ s) ∧ StakeLedger s)
    (fun _ => True) ?_ (fun _ _ => trivial) ⟨hc.market, hc.stakes⟩
  rintro s m s' _ ⟨hmarket, hstakes⟩ hmove
  exact ⟨hmove.closed_or_open hmarket, hmove.stakeLedger hmarket hstakes⟩

/-- Every event keeps the books. -/
theorem Books.step {env : Env} {c c' : Chain} {e : Event} (hc : c.Books)
    (h : Step env c e c') : c'.Books := by
  have hsettled := hc.toSettled.step h
  have hmarket := step_closed h hc.toSettled hc.market
  refine ⟨hsettled, hmarket, ?_⟩
  rcases step_moves h hc.toSettled with ⟨_, _, _, hsys, _⟩ | ⟨ms, s, hran⟩
  · rw [hsys]
    exact hc.stakes
  · rw [hran.sys]
    have hs := (hran.books hc).2
    exact ⟨hs.totals, hs.staked, hs.delband, hs.refunds⟩

/-- The books are in order in the beginning. -/
theorem books_genesis (env : Env) : (genesis env).Books where
  toSettled := settled_genesis env
  market := .inl ⟨rfl, rfl, rfl, rfl, rfl, fun _ => rfl, fun _ _ => rfl,
    fun _ => rfl⟩
  stakes :=
    { totals := by
        funext k
        simp [SysState.totals, SysState.delegated, colTotals, genesis,
          SysState.genesis]
      staked := by
        funext k
        simp [SysState.staked, Election.staked, SysState.staker,
          SysState.delegated, rowTotals, genesis, SysState.genesis]
      delband := fun _ _ _ hrow => by cases hrow
      refunds := fun _ _ hrow => by cases hrow }

/-- The books of every reachable state are in order. -/
theorem Reachable.books {env : Env} {c : Chain} (h : Reachable env c) :
    c.Books := by
  obtain ⟨es, hrun⟩ := h
  exact hrun.invariant (fun _ => True) (fun _ _ _ _ hc hstep => hc.step hstep)
    (fun _ _ => trivial) (books_genesis env)

/-- A row of resources that goes away in a step: nobody stakes for the account
any more, and it has sold all its bytes. -/
private theorem Books.erased {env : Env} {c c' : Chain} {e : Event}
    (hc : c.Books) (h : Step env c e c') {r : Name} {row : UserResources}
    (hrow : c.sys.userres.find r = some row)
    (hgone : c'.sys.userres.find r = none) :
    (∀ f, c'.sys.delegated f r = 0) ∧ row.memBytes + e.bytes r = 0 := by
  have hc' := hc.step h
  constructor
  · have hzero : ∑ f, c'.sys.delegated f r = 0 := by
      have htotals := congrFun hc'.stakes.totals r
      rw [show c'.sys.totals r = 0 from view_of_none hgone] at htotals
      exact htotals.symm
    have hall := (Finset.sum_eq_zero_iff_of_nonneg
      (fun f _ => hc'.stakes.delegated_nonneg f r)).mp hzero
    exact fun f => hall f (Finset.mem_univ f)
  · rcases hc.market with hclosed | ⟨core, quote₀, hopen⟩
    · rw [hclosed.userres r] at hrow
      cases hrow
    · have hbytes := congrFun (step_open h hc.toSettled hopen).2.1 r
      rw [show c'.sys.memBytes r = 0 from view_of_none hgone, Pi.add_apply,
        show c.sys.memBytes r = row.memBytes from view_of_find hrow] at hbytes
      exact hbytes.symm

/-- No account holds a negative number of bytes. -/
theorem Books.memBytes_nonneg {c : Chain} (hc : c.Books) (a : Name) :
    0 ≤ c.sys.memBytes a := by
  rcases hc.market with hclosed | ⟨core, quote₀, _, row, L, htrades⟩
  · exact (view_of_none (hclosed.userres a)).ge
  · rw [htrades.held]
    exact L.held_nonneg a

end Chain

/-- **The stake ledger is consistent.**  In every reachable state the totals
of a receiver are the sums over its delegators, the stake a voter votes with
is the sum over its receivers, no amount is negative and no row of stakes or
refunds is empty; and a row of resources goes away only when nothing at all is
left in it. -/
theorem stake_ledger_consistent {env : Env} {c : Chain}
    (hreach : Chain.Reachable env c) :
    (∀ r, c.sys.totals r = ∑ f, c.sys.delegated f r) ∧
    (∀ o, c.sys.staked o =
      ∑ r, ((c.sys.delegated o r).1 + (c.sys.delegated o r).2)) ∧
    (∀ f r row, (c.sys.delband f).find r = some row →
      0 ≤ row.netWeight.amount ∧ 0 ≤ row.cpuWeight.amount ∧
      ¬ (row.netWeight.amount = 0 ∧ row.cpuWeight.amount = 0)) ∧
    (∀ o row, c.sys.refunds.find o = some row →
      0 ≤ row.netAmount.amount ∧ 0 ≤ row.cpuAmount.amount ∧
      ¬ (row.netAmount.amount = 0 ∧ row.cpuAmount.amount = 0)) ∧
    (∀ r row, c.sys.userres.find r = some row →
      0 ≤ row.netWeight.amount ∧ 0 ≤ row.cpuWeight.amount ∧
      0 ≤ row.memBytes) ∧
    (∀ v row, c.sys.election.voters.find v = some row → 0 ≤ row.staked) ∧
    ∀ e c' r row, Chain.Step env c e c' →
      c.sys.userres.find r = some row → c'.sys.userres.find r = none →
      (∀ f, c'.sys.delegated f r = 0) ∧ row.memBytes + e.bytes r = 0 := by
  have hc := hreach.books
  refine ⟨congrFun hc.stakes.totals, fun o => ?_, fun f r row hrow => ?_,
    fun o row hrow => ?_, fun r row hrow => ?_, fun v row hrow => ?_,
    fun e c' r row hstep hrow hgone => hc.erased hstep hrow hgone⟩
  · rw [congrFun hc.stakes.staked o, SysState.staker, weight, rowTotals,
      Prod.fst_sum, Prod.snd_sum, Finset.sum_add_distrib]
  · obtain ⟨⟨hnet, hcpu⟩, hempty⟩ := hc.stakes.delband f r row hrow
    refine ⟨hnet, hcpu, fun hzero => ?_⟩
    simp [DelegatedBandwidth.isEmpty, hzero] at hempty
  · obtain ⟨⟨hnet, hcpu⟩, hempty, _⟩ := hc.stakes.refunds o row hrow
    refine ⟨hnet, hcpu, fun hzero => ?_⟩
    simp [RefundRequest.isEmpty, hzero] at hempty
  · have htotals : 0 ≤ c.sys.totals r := by
      rw [hc.stakes.totals]
      exact Finset.sum_nonneg (fun f _ => hc.stakes.delegated_nonneg f r)
    rw [show c.sys.totals r = row.weights from view_of_find hrow] at htotals
    have hbytes := hc.memBytes_nonneg r
    rw [show c.sys.memBytes r = row.memBytes from view_of_find hrow] at hbytes
    exact ⟨htotals.1, htotals.2, hbytes⟩
  · have hstaked := (hc.staked v).1
    rwa [show c.sys.staked v = row.staked from view_of_find hrow] at hstaked

/-- Stakes to oneself, to another account and as a gift, some of them taken
back. -/
def stakingEvents : List Event :=
  [.system (.signedBy alice 2)
      (.delegatebw alice alice ⟨700, inrSymbol⟩ ⟨300, inrSymbol⟩ false),
    .system (.signedBy alice 3)
      (.delegatebw alice bob ⟨50, inrSymbol⟩ ⟨60, inrSymbol⟩ false),
    .system (.signedBy alice 4)
      (.delegatebw alice bob ⟨5, inrSymbol⟩ ⟨6, inrSymbol⟩ true),
    .system (.signedBy alice 5)
      (.undelegatebw alice alice ⟨200, inrSymbol⟩ ⟨300, inrSymbol⟩),
    .system (.signedBy alice 6)
      (.delegatebw alice alice ⟨150, inrSymbol⟩ ⟨0, inrSymbol⟩ false)]

/-- After the sample stakes the totals of the receiver are still the sum over
its delegators. -/
theorem stake_ledger_consistent_sample : ∃ c : Chain,
    c.sys.totals bob = (55, 66) ∧
    c.sys.totals bob = ∑ f, c.sys.delegated f bob := by
  have hsample : SampleRun stakingEvents
      (fun _ c => c.sys.totals bob = (55, 66)) := by
    decide +kernel
  obtain ⟨_, c, hreach, hbob⟩ := hsample.reachable
  exact ⟨c, hbob, (stake_ledger_consistent hreach).1 bob⟩

end Inery
