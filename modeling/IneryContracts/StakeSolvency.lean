import IneryContracts.MarketBacking

/-!
# The stake account is solvent

What the stake account keeps for the others is their stakes and their refunds.
Every move changes its balance and that sum by the same amount, unless it pays
producers, which can only raise the balance; and what an account holds, liquid
or kept for it, changes only where a stake is given away.
-/

namespace Inery

open GuardedStep LedgerVector LabelledRun MachineInt

/-- What the stake account keeps for an account: its stakes and its refund. -/
noncomputable def SysState.owed (s : SysState) (a : Name) : ℤ :=
  (∑ r, ((s.delegated a r).1 + (s.delegated a r).2)) +
    ((s.refunded a).1 + (s.refunded a).2)

/-- What is owed is what is staked and what is to be refunded. -/
theorem SysState.owed_eq (s : SysState) :
    s.owed = s.staker + fun a => weight (s.refunded a) := by
  funext a
  rw [owed, Pi.add_apply, staker, weight, weight, rowTotals, Prod.fst_sum,
    Prod.snd_sum, Finset.sum_add_distrib]

/-- What a move adds to what is kept for the accounts. -/
def Move.owing (s : SysState) : Move → Name → ℤ
  | .staked _ owner _ dn dc ρ =>
      Pi.single owner (dn.amount + dc.amount + (ρ.1 + ρ.2))
  | .refunded owner =>
      -Pi.single owner ((s.refunded owner).1 + (s.refunded owner).2)
  | .rest | .payroll | .opened | .grown _ | .rated | .bought _ _ _ _
  | .sold _ _ _ | .paidOut _ _ | .created _ => 0

section Moves

variable {s s' : SysState} {t : TokenState} {core : Symbol} {quote₀ : ℤ}

/-- What is owed is read off two tables. -/
theorem owed_congr (hdelband : s'.delband = s.delband)
    (hrefunds : s'.refunds = s.refunds) : s'.owed = s.owed := by
  rw [SysState.owed_eq, SysState.owed_eq, SysState.staker_congr hdelband,
    SysState.refunded, hrefunds, SysState.refunded]

/-- A change of stake and its refund change what is owed by their sum. -/
private theorem owed_staked {source owner receiver : Name} {dn dc : Asset}
    {ρ : ℤ × ℤ} (h : System.StakeChange s s' source owner receiver dn dc ρ) :
    s'.owed = s.owed +
      Pi.single owner (dn.amount + dc.amount + (ρ.1 + ρ.2)) := by
  funext a
  rw [SysState.owed_eq, SysState.owed_eq]
  simp only [Pi.add_apply, SysState.staker]
  rw [h.delegated, rowTotals_add_cell, h.refunded, Pi.add_apply, Pi.add_apply,
    weight_add, weight_add, Pi.single_apply, Pi.single_apply, Pi.single_apply]
  by_cases ha : a = owner
  · simp only [ha, if_true, weight]
    ring
  · simp [ha]

/-- A refund that is paid out is owed no longer. -/
private theorem owed_refunded {owner : Name}
    (hmove : Moved s (.refunded owner) s') :
    s'.owed = s.owed -
      Pi.single owner ((s.refunded owner).1 + (s.refunded owner).2) := by
  obtain ⟨req, hreq, rfl⟩ := hmove
  funext a
  rw [SysState.owed_eq, SysState.owed_eq]
  have herase : view RefundRequest.weights (s.refunds.erase owner) =
      s.refunded - Pi.single owner (s.refunded owner) := view_erase _ _ _
  simp only [Pi.add_apply, Pi.sub_apply, SysState.refunded,
    SysState.send] at herase ⊢
  rw [herase, Pi.sub_apply, Pi.single_apply, Pi.single_apply]
  by_cases ha : a = owner
  · simp only [ha, if_true, sub_self, weight]
    show s.staker owner + 0 = _
    ring
  · simp only [ha, if_false, sub_zero]
    rfl

/-- Every move changes what is kept for the accounts by what it says. -/
theorem Moved.owed {m : Move} (hmove : Moved s m s') :
    s'.owed = s.owed + m.owing s := by
  cases m with
  | rest =>
      rw [owed_congr hmove.delband hmove.refunds, Move.owing, add_zero]
  | payroll =>
      rw [owed_congr hmove.1.delband hmove.1.refunds, Move.owing, add_zero]
  | opened =>
      obtain ⟨_, _, rfl⟩ := hmove
      exact (add_zero _).symm
  | grown bytes =>
      obtain ⟨_, _, rfl⟩ := hmove
      exact (add_zero _).symm
  | rated =>
      obtain ⟨_, rfl⟩ := hmove
      exact (add_zero _).symm
  | bought payer receiver quant bytes =>
      obtain ⟨_, _, _, _, _, _, _, rfl⟩ := hmove
      exact (add_zero _).symm
  | sold account bytes tokens =>
      obtain ⟨_, _, _, _, _, _, rfl⟩ := hmove
      exact (add_zero _).symm
  | paidOut account tokens =>
      obtain ⟨_, rfl⟩ := hmove
      exact (add_zero _).symm
  | staked source owner receiver dn dc ρ => exact owed_staked hmove.2
  | refunded owner => rw [owed_refunded hmove, Move.owing, sub_eq_add_neg]
  | created account =>
      obtain ⟨_, _, _, _, _, _, rfl⟩ := hmove
      exact (add_zero _).symm

/-- The stake account has no refund of its own while it signs nothing. -/
theorem Moved.refunded_stake {m : Move} (hmove : Moved s m s')
    (hsigner : m.Signer stakeAccount → m = .refunded stakeAccount)
    (hfair : m.Fair) (h : s.refunded stakeAccount = 0) :
    s'.refunded stakeAccount = 0 := by
  cases m with
  | rest => rwa [SysState.refunded, hmove.refunds]
  | payroll => rwa [SysState.refunded, hmove.1.refunds]
  | opened =>
      obtain ⟨_, _, rfl⟩ := hmove
      exact h
  | grown bytes =>
      obtain ⟨_, _, rfl⟩ := hmove
      exact h
  | rated =>
      obtain ⟨_, rfl⟩ := hmove
      exact h
  | bought payer receiver quant bytes =>
      obtain ⟨_, _, _, _, _, _, _, rfl⟩ := hmove
      exact h
  | sold account bytes tokens =>
      obtain ⟨_, _, _, _, _, _, rfl⟩ := hmove
      exact h
  | paidOut account tokens =>
      obtain ⟨_, rfl⟩ := hmove
      exact h
  | staked source owner receiver dn dc ρ =>
      rw [hmove.2.refunded, Pi.add_apply, h, zero_add, Pi.single_apply]
      by_cases howner : stakeAccount = owner
      · -- a stake of the stake account was given to it
        have hne : source ≠ owner := by
          rintro rfl
          have hbad := hsigner howner.symm
          cases hbad
        rcases hfair with hself | ⟨hn, hc⟩
        · exact absurd hself hne
        · rw [hmove.2.gift hne hn hc, ite_self]
      · rw [if_neg howner]
  | refunded owner =>
      obtain ⟨_, _, rfl⟩ := hmove
      show view RefundRequest.weights (s.refunds.erase owner) stakeAccount = 0
      rw [view_erase, Pi.sub_apply]
      have hview : view RefundRequest.weights s.refunds stakeAccount = 0 := h
      by_cases howner : stakeAccount = owner
      · subst howner
        simp [hview]
      · simp [howner, hview]
  | created account =>
      obtain ⟨_, _, _, _, _, _, rfl⟩ := hmove
      exact h

/-- The books of an open market whose stake account has no refund. -/
def StakeBooks (core : Symbol) (quote₀ : ℤ) (s : SysState) : Prop :=
  OpenBooks core quote₀ s ∧ s.refunded stakeAccount = 0

/-- A move that the stake account does not sign raises its balance and what it
owes by the same amount. -/
theorem Moved.pending_stake {m : Move} (hmove : Moved s m s')
    (hbooks : StakeBooks core quote₀ s)
    (hsigner : m.Signer stakeAccount → m = .refunded stakeAccount)
    (hpayroll : m ≠ .payroll) :
    s'.pending t core.code stakeAccount - total s'.owed =
      s.pending t core.code stakeAccount - total s.owed := by
  obtain ⟨⟨hopen, hstakes⟩, hzero⟩ := hbooks
  have hcore := hopen.coreSymbol
  have hne : stakeAccount ≠ memAccount := by decide
  rw [hmove.pending hcore (hstakes.refundsIn hcore) hpayroll, hmove.owed,
    Pi.add_apply, total_add]
  have hsame : m.flow s stakeAccount = total (m.owing s) := by
    cases m with
    | bought payer receiver quant bytes =>
        have hpayer : stakeAccount ≠ payer := by
          rintro rfl
          have hbad := hsigner rfl
          cases hbad
        simp [Move.flow, Move.owing, payment_apply, hpayer, hne]
    | paidOut account tokens =>
        have haccount : stakeAccount ≠ account := by
          rintro rfl
          have hbad := hsigner rfl
          cases hbad
        simp [Move.flow, Move.owing, payment_apply, haccount, hne]
    | staked source owner receiver dn dc ρ =>
        have hsource : stakeAccount ≠ source := by
          rintro rfl
          have hbad := hsigner rfl
          cases hbad
        simp [Move.flow, Move.owing, payment_apply, hsource]
    | refunded owner =>
        rw [Move.flow, Move.owing, payment_apply, ← Pi.single_neg,
          total_single, if_pos rfl]
        by_cases howner : stakeAccount = owner
        · subst howner
          simp [hzero]
        · simp [howner]
    | payroll => exact absurd rfl hpayroll
    | rest => simp [Move.flow, Move.owing]
    | opened => simp [Move.flow, Move.owing]
    | grown bytes => simp [Move.flow, Move.owing]
    | rated => simp [Move.flow, Move.owing]
    | sold account bytes tokens => simp [Move.flow, Move.owing]
    | created account => simp [Move.flow, Move.owing]
  omega

/-- What is kept for the accounts is covered, before the opening because there
is nothing to cover. -/
def Covered (t : TokenState) (s : SysState) : Prop :=
  Closed s ∧ StakeLedger s ∧
    (∀ code, 0 ≤ s.pending t code stakeAccount) ∨
  ∃ core quote₀, StakeBooks core quote₀ s ∧
    total s.owed ≤ s.pending t core.code stakeAccount

/-- Nothing is owed before the market opens. -/
theorem Closed.owed_eq_zero (h : Closed s) : s.owed = 0 := by
  funext a
  have hdel : ∀ r, s.delegated a r = 0 := fun r => view_of_none (h.delband a r)
  have href : s.refunded a = 0 := view_of_none (h.refunds a)
  simp [SysState.owed, hdel, href]

/-- Before the opening no balance falls, but for those that pay producers. -/
theorem Moved.pending_early {m : Move} (hmove : Moved s m s')
    (hearly : m.Early) (code : SymbolCode) {a : Name}
    (hs : a ≠ systemAccount) (hb : a ≠ bpayAccount) (hv : a ≠ vpayAccount) :
    s.pending t code a ≤ s'.pending t code a := by
  cases m with
  | rest => rw [pending_congr hmove.outbox]
  | payroll => exact pending_le_of_payroll hmove code hs hb hv
  | opened =>
      obtain ⟨_, _, rfl⟩ := hmove
      exact le_refl _
  | rated =>
      obtain ⟨_, rfl⟩ := hmove
      exact le_refl _
  | _ => exact hearly.elim

/-- A move keeps what is owed covered, if `inery.stake` signs none of it. -/
theorem Moved.covered {m : Move} (hmove : Moved s m s') (h : Covered t s)
    (hsigner : m.Signer stakeAccount → m = .refunded stakeAccount)
    (hfair : m.Fair) : Covered t s' := by
  rcases h with ⟨hclosed, hstakes, hpos⟩ | ⟨core, quote₀, hbooks, hcover⟩
  · have hstakes' := hmove.stakeLedger (.inl hclosed) hstakes
    have hpos' : ∀ code, 0 ≤ s'.pending t code stakeAccount := fun code =>
      (hpos code).trans (hmove.pending_early (hmove.early hclosed) code
        (by decide) (by decide) (by decide))
    rcases hmove.closed hclosed with hclosed' | ⟨rfl, core, quote₀, hopen⟩
    · exact .inl ⟨hclosed', hstakes', hpos'⟩
    · have hzero := hmove.refunded_stake hsigner hfair
        (view_of_none (hclosed.refunds stakeAccount))
      refine .inr ⟨core, quote₀, ⟨⟨hopen, hstakes'⟩, hzero⟩, ?_⟩
      rw [hmove.owed, hclosed.owed_eq_zero, Move.owing, add_zero, total_zero]
      exact hpos' core.code
  · have hbooks' : StakeBooks core quote₀ s' :=
      ⟨hmove.openBooks hbooks.1, hmove.refunded_stake hsigner hfair hbooks.2⟩
    refine .inr ⟨core, quote₀, hbooks', ?_⟩
    by_cases hpayroll : m = .payroll
    · subst hpayroll
      have hle := pending_le_of_payroll (t := t) hmove core.code
        (a := stakeAccount) (by decide) (by decide) (by decide)
      rw [hmove.owed, Move.owing, add_zero]
      omega
    · have heq := hmove.pending_stake (t := t) hbooks hsigner hpayroll
      omega

/-- What a move gives from one account's holding to another's. -/
def Move.gift : Move → Name → ℤ
  | .staked source owner _ dn dc _ =>
      payment source owner (dn.amount + dc.amount)
  | .bought payer _ quant _ => payment payer memAccount quant.amount
  | .paidOut account tokens => payment memAccount account tokens.amount
  | .rest | .payroll | .opened | .grown _ | .rated | .sold _ _ _
  | .refunded _ | .created _ => 0

/-- What an account holds, once the transfers are done, changes only by what
is given or paid for. -/
theorem Moved.pending_owed {m : Move} (hmove : Moved s m s')
    (hstakes : StakeLedger s) (hcore : s.market.coreSymbol = .ok core)
    (hfair : m.Fair) (hpayroll : m ≠ .payroll) {a : Name}
    (ha : a ≠ stakeAccount) :
    s'.pending t core.code a + s'.owed a =
      s.pending t core.code a + s.owed a + m.gift a := by
  have hsame : m.flow s a + m.owing s a = m.gift a := by
    cases m with
    | staked source owner receiver dn dc ρ =>
        simp only [Move.flow, Move.owing, Move.gift, payment_apply, ha,
          if_false, Pi.single_apply]
        by_cases hsource : source = owner
        · subst hsource
          split <;> omega
        · rcases hfair with hself | ⟨hn, hc⟩
          · exact absurd hself hsource
          · rw [hmove.2.gift hsource hn hc]
            simp
            omega
    | refunded owner =>
        simp only [Move.flow, Move.owing, Move.gift, payment_apply, ha,
          if_false, Pi.neg_apply, Pi.single_apply, Pi.zero_apply]
        split <;> omega
    | payroll => exact absurd rfl hpayroll
    | bought payer receiver quant bytes =>
        simp [Move.flow, Move.owing, Move.gift]
    | paidOut account tokens => simp [Move.flow, Move.owing, Move.gift]
    | rest => simp [Move.flow, Move.owing, Move.gift]
    | opened => simp [Move.flow, Move.owing, Move.gift]
    | grown bytes => simp [Move.flow, Move.owing, Move.gift]
    | rated => simp [Move.flow, Move.owing, Move.gift]
    | sold account bytes tokens => simp [Move.flow, Move.owing, Move.gift]
    | created account => simp [Move.flow, Move.owing, Move.gift]
  rw [hmove.pending hcore (hstakes.refundsIn hcore) hpayroll, hmove.owed,
    Pi.add_apply, Pi.add_apply, ← hsame]
  ring

end Moves

/-! ## Events -/

/-- The stake actions, and refunds on schedule. -/
def Event.IsStaking : Event → Prop
  | system _ (.delegatebw _ _ _ _ _) => True
  | system _ (.undelegatebw _ _ _ _) => True
  | system _ (.refund _) => True
  | deferred _ _ _ => True
  | _ => False

/-- What an event gives away: a stake with the right to take it back. -/
def Event.gift : Event → Name → ℤ
  | system _ (.delegatebw from' receiver net cpu true) =>
      payment from' receiver (net.amount + cpu.amount)
  | _ => 0

/-- The moves of a stake action pay no producers and open no market, and give
away what the action gives away. -/
private theorem Event.IsStaking.moves {e : Event} {ms : List Move}
    (he : e.IsStaking) (hms : e.Moves ms) :
    (∀ m ∈ ms, m ≠ .payroll ∧ m ≠ .opened) ∧
    (ms.map Move.gift).sum = e.gift := by
  cases e with
  | token ctx a => exact hms.elim
  | deferred slot isAccount owner =>
      rcases hms with rfl | rfl <;> simp [Move.gift, Event.gift]
  | system ctx a =>
      cases a
      case delegatebw from' receiver net cpu transfer =>
        obtain ⟨_, _, _, _, _, ρ, rfl⟩ := hms
        cases transfer <;> simp [Move.gift, Event.gift]
      case undelegatebw from' receiver net cpu =>
        obtain ⟨_, _, ρ, rfl⟩ := hms
        simp [Move.gift, Event.gift]
      case refund owner =>
        obtain ⟨_, rfl⟩ := hms
        simp [Move.gift, Event.gift]
      all_goals exact he.elim

namespace Chain

/-- What an account holds: its core tokens, its stakes and its refund. -/
noncomputable def holding (c : Chain) (a : Name) : ℤ :=
  c.liquid a + c.sys.owed a

/-- Nothing is liquid before the market opens. -/
theorem liquid_of_closed {c : Chain} (h : Closed c.sys) : c.liquid = 0 := by
  rw [liquid, h.memmarket]
  rfl

/-- The books of a chain whose stake account covers what it keeps. -/
structure Solvent (c : Chain) : Prop where
  books : c.Books
  refunded : c.sys.refunded stakeAccount = 0
  covered : total c.sys.owed ≤ c.liquid stakeAccount

theorem Solvent.toCovered {c : Chain} (hc : c.Solvent) :
    Covered c.token c.sys := by
  rcases hc.books.market with hclosed | ⟨core, quote₀, hopen⟩
  · refine .inl ⟨hclosed, hc.books.stakes, fun code => ?_⟩
    rw [hc.books.toSettled.pending]
    exact hc.books.token.nonneg code stakeAccount
  · refine .inr ⟨core, quote₀, ⟨⟨hopen, hc.books.stakes⟩, hc.refunded⟩, ?_⟩
    rw [← hc.books.liquid_eq hopen]
    exact hc.covered

section Steps

variable {env : Env} {c c' : Chain} {e : Event} {ms : List Move}
  {s : SysState}

/-- Moves on the side leave what is owed. -/
theorem RanMoves.owed (hran : RanMoves c e ms s c') :
    c'.sys.owed = s.owed := by
  rw [hran.sys]
  exact owed_congr rfl rfl

/-- Who signs nothing itself only signs its refund among the moves. -/
private theorem RanMoves.fair (hran : RanMoves c e ms s c') {a : Name}
    (htop : ¬ e.TopLevelBy a) {m : Move} (hm : m ∈ ms) :
    (m.Signer a → m = .refunded a) ∧ m.Fair :=
  ⟨fun hsign => Event.refunded_of_signer hran.moves hm hsign htop,
    Event.fair_of_moves hran.moves hm⟩

/-- **Every event keeps the stakes solvent** that `inery.stake` does not
sign. -/
theorem Solvent.step (hc : c.Solvent) (htop : ¬ e.TopLevelBy stakeAccount)
    (h : Step env c e c') : c'.Solvent := by
  have hbooks' := hc.books.step h
  rcases step_moves h hc.books.toSettled with ⟨ctx, a, rfl, hsys, htoken⟩ |
    ⟨ms, s, hran⟩
  · refine ⟨hbooks', hsys ▸ hc.refunded, ?_⟩
    rw [hsys]
    refine hc.covered.trans ?_
    simp only [liquid, hsys]
    cases c.sys.market.memmarket with
    | none => exact le_refl _
    | some row => exact balances_le_of_not_hasAuth htoken htop _
  · have hend := hran.run.invariant (I := Covered c.token)
      (fun m => (m.Signer stakeAccount → m = .refunded stakeAccount) ∧ m.Fair)
      (fun _ _ _ hp hs hm => Moved.covered hm hs hp.1 hp.2)
      (fun m hm => hran.fair htop hm) hc.toCovered
    have hrefunded : c'.sys.refunded = s.refunded := by
      rw [hran.sys]
      rfl
    rcases hend with ⟨hclosed, _, _⟩ | ⟨core, quote₀, hbooks, hcover⟩
    · refine ⟨hbooks', hrefunded ▸ view_of_none (hclosed.refunds _), ?_⟩
      rw [hran.owed, hclosed.owed_eq_zero, total_zero]
      exact hbooks'.liquid_nonneg _
    · refine ⟨hbooks', hrefunded ▸ hbooks.2, ?_⟩
      rwa [hran.owed, hran.liquid_eq hbooks.1.1]

/-- Nothing is staked or refunded before the market opens. -/
private theorem RanMoves.closed_staking (hran : RanMoves c e ms s c')
    (he : e.IsStaking) (h : Closed c.sys) : c'.liquid = 0 ∧
    c'.sys.owed = 0 ∧ e.gift = 0 := by
  have hmoves := he.moves hran.moves
  have hend := hran.run.invariant (I := Closed) (fun m => m ≠ .opened)
    (fun _ _ _ hp hs hm => (Moved.closed hm hs).resolve_right
      (fun hopened => hp hopened.1))
    (fun m hm => (hmoves.1 m hm).2) h
  have hclosed' : Closed c'.sys := by
    rw [hran.sys]
    exact { hend with }
  have hgift := hran.run.telescope (m := fun _ => (0 : Name → ℤ))
    (I := Closed) (d := Move.gift) (fun m => m ≠ .opened)
    (fun _ _ _ hp hs hm => (Moved.closed hm hs).resolve_right
      (fun hopened => hp hopened.1))
    (fun s m s' _ hs hm => by
      have hearly := Moved.early hm hs
      cases m <;> first | exact (add_zero 0).symm | exact hearly.elim)
    (fun m hm => (hmoves.1 m hm).2) h
  rw [hmoves.2, zero_add] at hgift
  exact ⟨liquid_of_closed hclosed', hclosed'.owed_eq_zero, hgift.symm⟩

/-- A stake action moves the balance of the stake account by what it adds to
what the account keeps. -/
theorem Solvent.staking (hc : c.Solvent) (htop : ¬ e.TopLevelBy stakeAccount)
    (he : e.IsStaking) (h : Step env c e c') :
    c'.liquid stakeAccount - c.liquid stakeAccount =
      total c'.sys.owed - total c.sys.owed := by
  rcases step_moves h hc.books.toSettled with ⟨ctx, a, rfl, _, _⟩ |
    ⟨ms, s, hran⟩
  · exact he.elim
  · have hmoves := he.moves hran.moves
    rcases hc.books.market with hclosed | ⟨core, quote₀, hopen⟩
    · obtain ⟨hliquid', howed', _⟩ := hran.closed_staking he hclosed
      rw [hliquid', howed', liquid_of_closed hclosed, hclosed.owed_eq_zero]
      simp
    · have hbooks : StakeBooks core quote₀ c.sys :=
        ⟨⟨hopen, hc.books.stakes⟩, hc.refunded⟩
      let P : Move → Prop := fun m =>
        ((m.Signer stakeAccount → m = .refunded stakeAccount) ∧ m.Fair) ∧
          m ≠ .payroll
      have hP : ∀ m ∈ ms, P m :=
        fun m hm => ⟨hran.fair htop hm, (hmoves.1 m hm).1⟩
      have hstep : ∀ s m s', P m → StakeBooks core quote₀ s → Moved s m s' →
          StakeBooks core quote₀ s' := fun s m s' hp hs hm =>
        ⟨hm.openBooks hs.1, hm.refunded_stake hp.1.1 hp.1.2 hs.2⟩
      have hend := hran.run.invariant (I := fun s =>
          StakeBooks core quote₀ s ∧
          s.pending c.token core.code stakeAccount - total s.owed =
            c.sys.pending c.token core.code stakeAccount - total c.sys.owed)
        P (fun s m s' hp hs hm => ⟨hstep s m s' hp hs.1 hm,
          (hm.pending_stake hs.1 hp.1.1 hp.2).trans hs.2⟩) hP ⟨hbooks, rfl⟩
      have hsame := hend.2
      rw [hran.owed, hran.liquid_eq hend.1.1.1, hc.books.liquid_eq hopen]
      omega

/-- A stake action leaves the holdings alone, but for what it gives away. -/
theorem Books.holding_staking (hc : c.Books) (he : e.IsStaking)
    (h : Step env c e c') {a : Name} (ha : a ≠ stakeAccount) :
    c'.holding a = c.holding a + e.gift a := by
  rcases step_moves h hc.toSettled with ⟨ctx, a, rfl, _, _⟩ | ⟨ms, s, hran⟩
  · exact he.elim
  · have hmoves := he.moves hran.moves
    rcases hc.market with hclosed | ⟨core, quote₀, hopen⟩
    · obtain ⟨hliquid', howed', hgift⟩ := hran.closed_staking he hclosed
      simp only [holding, hliquid', howed', hgift, liquid_of_closed hclosed,
        hclosed.owed_eq_zero]
      rfl
    · have hbooks : OpenBooks core quote₀ c.sys := ⟨hopen, hc.stakes⟩
      let P : Move → Prop := fun m => m.Fair ∧ m ≠ .payroll
      have hP : ∀ m ∈ ms, P m := fun m hm =>
        ⟨Event.fair_of_moves hran.moves hm, (hmoves.1 m hm).1⟩
      have hstep : ∀ s m s', P m → OpenBooks core quote₀ s → Moved s m s' →
          OpenBooks core quote₀ s' := fun _ _ _ _ hs hm => hm.openBooks hs
      have hend := hran.run.invariant P hstep hP hbooks
      have hsum := hran.run.telescope
        (m := fun s => s.pending c.token core.code a + s.owed a)
        (d := fun m => m.gift a) P hstep
        (fun s m s' hp hs hm =>
          hm.pending_owed hs.2 hs.1.coreSymbol hp.1 hp.2 ha) hP hbooks
      rw [holding, holding, hran.owed, hran.liquid_eq hend.1,
        hc.liquid_eq hopen, ← hmoves.2, Pi.list_sum_apply, List.map_map]
      exact hsum

/-- Nothing is owed in the beginning. -/
theorem solvent_genesis (env : Env) : (genesis env).Solvent := by
  have hbooks := books_genesis env
  refine ⟨hbooks, rfl, ?_⟩
  rcases hbooks.market with hclosed | ⟨_, _, _, _, _, htrades⟩
  · rw [hclosed.owed_eq_zero, total_zero]
    exact hbooks.liquid_nonneg _
  · have hnone := htrades.hasRow.found
    cases hnone

/-- Such events keep the stakes solvent one after the other. -/
theorem Solvent.run {es : List Event} (hc : c.Solvent)
    (hrun : Run (Step env) c es c')
    (hstake : ∀ e ∈ es, ¬ e.TopLevelBy stakeAccount) : c'.Solvent :=
  hrun.invariant (fun e => ¬ e.TopLevelBy stakeAccount)
    (fun _ _ _ htop hd hstep => hd.step htop hstep) hstake hc

end Steps

end Chain

/-- **Stakes are conserved and the stake account is solvent**, as long as it
signs nothing itself.  Its balance covers all stakes and all refunds; a stake
action or a refund moves the balance by what it adds to them, and leaves what
every other account holds as it was, but for a stake that is given away. -/
theorem stake_solvent {env : Env} {es : List Event} {c : Chain}
    (hrun : Run (Chain.Step env) (.genesis env) es c)
    (hstake : ∀ e ∈ es, ¬ e.TopLevelBy stakeAccount) :
    total c.sys.owed ≤ c.liquid stakeAccount ∧
    ∀ e c', Chain.Step env c e c' → ¬ e.TopLevelBy stakeAccount →
      e.IsStaking →
      c'.liquid stakeAccount - c.liquid stakeAccount =
        total c'.sys.owed - total c.sys.owed ∧
      ∀ a, a ≠ stakeAccount → c'.holding a = c.holding a + e.gift a := by
  have hc := (Chain.solvent_genesis env).run hrun hstake
  exact ⟨hc.covered, fun e c' hstep htop he =>
    ⟨hc.staking htop he hstep, fun a ha =>
      hc.books.holding_staking he hstep ha⟩⟩

/-- In the sample run the stake account has the 1121 units that are staked or
wait as a refund. -/
theorem stake_solvent_sample : ∃ c : Chain,
    c.liquid stakeAccount = 1121 ∧
    total c.sys.owed ≤ c.liquid stakeAccount := by
  have hsample : SampleRun stakingEvents
      (fun _ c => c.liquid stakeAccount = 1121) := by
    decide +kernel
  obtain ⟨c₀, c₁, c, hbefore, hinit, hafter, hliquid⟩ := hsample.runs
  have hrun := (hbefore.append (.single hinit)).append hafter
  refine ⟨c, hliquid, (stake_solvent hrun ?_).1⟩
  simp only [openingEvents, stakingEvents, List.cons_append, List.nil_append,
    List.forall_mem_cons, List.not_mem_nil, IsEmpty.forall_iff, implies_true,
    and_true, Event.TopLevelBy]
  decide

end Inery
