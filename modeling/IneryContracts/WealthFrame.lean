import IneryContracts.StakeSolvency

/-!
# Nobody's wealth is taken

An account that does not authorise an event signs none of its moves, and a move
takes tokens, stakes and bytes only from its signer and from the accounts of
the system.
-/

namespace Inery

open GuardedStep LedgerVector LabelledRun

/-- The accounts that hold tokens for the system. -/
def systemAccounts : List Name :=
  [systemAccount, tokenAccount, stakeAccount, memAccount, bpayAccount,
    vpayAccount]

section Moves

variable {s s' : SysState} {t : TokenState} {core : Symbol} {quote₀ : ℤ}
  {a : Name}

/-- A fair move gives nothing away that is not its signer's. -/
theorem Move.gift_nonneg {m : Move} (hsigner : ¬ m.Signer a)
    (hfair : m.Fair) (hmem : a ≠ memAccount) (hbought : ∀ payer receiver q b,
      m = .bought payer receiver q b → 0 ≤ q.amount) : 0 ≤ m.gift a := by
  cases m with
  | staked source owner receiver dn dc ρ =>
      have hsource : a ≠ source := fun h => hsigner h.symm
      simp only [Move.gift, payment_apply, hsource, if_false, sub_zero]
      split
      · next howner =>
          rcases hfair with hself | ⟨hn, hc⟩
          · exact absurd (howner.trans hself.symm) hsource
          · exact add_nonneg hn hc
      · exact le_refl 0
  | bought payer receiver quant bytes =>
      have hpayer : a ≠ payer := fun h => hsigner h.symm
      simp [Move.gift, payment_apply, hpayer, hmem]
  | paidOut account tokens =>
      have haccount : a ≠ account := fun h => hsigner h.symm
      simp [Move.gift, payment_apply, haccount, hmem]
  | _ => exact le_refl 0

/-- What an account holds does not fall by a move that it does not sign. -/
theorem Moved.pending_owed_le {m : Move} (hmove : Moved s m s')
    (hbooks : OpenBooks core quote₀ s) (hsigner : ¬ m.Signer a)
    (hfair : m.Fair) (ha : a ∉ systemAccounts) :
    s.pending t core.code a + s.owed a ≤
      s'.pending t core.code a + s'.owed a := by
  simp only [systemAccounts, List.mem_cons, List.not_mem_nil, or_false,
    not_or] at ha
  obtain ⟨hs, _, hstake, hmem, hb, hv⟩ := ha
  by_cases hpayroll : m = .payroll
  · subst hpayroll
    have hle := pending_le_of_payroll (t := t) hmove core.code hs hb hv
    rw [hmove.owed, Move.owing, add_zero]
    omega
  · have heq := hmove.pending_owed (t := t) hbooks.2 hbooks.1.coreSymbol hfair
      hpayroll hstake
    have hgift : 0 ≤ m.gift a := by
      refine m.gift_nonneg hsigner hfair hmem ?_
      rintro payer receiver q b rfl
      obtain ⟨_, _, _, hpos, _⟩ := hmove
      exact hpos.le
    omega

/-- The stake an account votes with falls only by a move that it signs. -/
theorem Moved.staked_le {m : Move} (hmove : Moved s m s')
    (hsigner : ¬ m.Signer a) (hfair : m.Fair) :
    s.staked a ≤ s'.staked a := by
  cases m with
  | rest => exact (congrFun hmove.staked a).ge
  | payroll => exact (congrFun hmove.1.staked a).ge
  | opened =>
      obtain ⟨_, _, rfl⟩ := hmove
      exact le_refl _
  | grown bytes =>
      obtain ⟨_, _, rfl⟩ := hmove
      exact le_refl _
  | rated =>
      obtain ⟨_, rfl⟩ := hmove
      exact le_refl _
  | bought payer receiver quant bytes =>
      obtain ⟨_, _, _, _, _, _, _, rfl⟩ := hmove
      exact le_refl _
  | sold account bytes tokens =>
      obtain ⟨_, _, _, _, _, _, rfl⟩ := hmove
      exact le_refl _
  | paidOut account tokens =>
      obtain ⟨_, rfl⟩ := hmove
      exact le_refl _
  | staked source owner receiver dn dc ρ =>
      rw [hmove.2.staked, Pi.add_apply, Pi.single_apply]
      split
      · next howner =>
          rcases hfair with hself | ⟨hn, hc⟩
          · exact absurd (hself.trans howner.symm) hsigner
          · omega
      · exact (add_zero _).ge
  | refunded owner =>
      obtain ⟨_, _, rfl⟩ := hmove
      exact le_refl _
  | created account =>
      obtain ⟨_, _, _, _, _, _, rfl⟩ := hmove
      exact le_refl _

/-- The bytes of an account fall only by a move that it signs. -/
theorem Moved.memBytes_le {m : Move} (hmove : Moved s m s')
    (hopen : Open core quote₀ s) (hsigner : ¬ m.Signer a) :
    s.memBytes a ≤ s'.memBytes a := by
  obtain ⟨hquote₀, row, L, htrades⟩ := hopen
  have hpriced := (hmove.traded htrades hquote₀).2
  rw [(hmove.bytes_paidIn ⟨hquote₀, row, L, htrades⟩).1, Pi.add_apply]
  cases m with
  | bought payer receiver quant bytes =>
      obtain ⟨_, _, _, hpos, _⟩ := hmove
      have hbytes : 0 ≤ bytes := by
        rw [hpriced.2]
        exact Int.ediv_nonneg (mul_nonneg hpos.le (by decide)) (by decide)
      simp only [Move.bytes, Pi.single_apply]
      split <;> omega
  | sold account bytes tokens =>
      have haccount : a ≠ account := fun h => hsigner h.symm
      simp [Move.bytes, haccount]
  | _ => exact (add_zero _).ge

end Moves

namespace Chain

variable {env : Env} {c c' : Chain} {e : Event} {a : Name}

theorem Books.owed_nonneg (hc : c.Books) (a : Name) : 0 ≤ c.sys.owed a := by
  rw [SysState.owed_eq]
  exact add_nonneg (hc.stakes.staker_nonneg a)
    (weight_nonneg (hc.stakes.refunded_nonneg a))

theorem Books.holding_nonneg (hc : c.Books) (a : Name) : 0 ≤ c.holding a :=
  add_nonneg (hc.liquid_nonneg a) (hc.owed_nonneg a)

/-- Before the market opens there is nothing to take. -/
private theorem holding_of_closed (hc : c.Books) (h : Closed c.sys) :
    c.holding a = 0 ∧ c.sys.staked a = 0 ∧ c.sys.memBytes a = 0 := by
  refine ⟨?_, ?_, view_of_none (h.userres a)⟩
  · rw [holding, liquid_of_closed h, h.owed_eq_zero]
    rfl
  · have hdel : ∀ r, c.sys.delegated a r = 0 :=
      fun r => view_of_none (h.delband a r)
    rw [hc.stakes.staked]
    simp [SysState.staker, rowTotals, hdel]

theorem Books.wealth_le (hc : c.Books) (h : Step env c e c')
    (hauth : ¬ e.AuthorizedBy a) (ha : a ∉ systemAccounts) :
    c.holding a ≤ c'.holding a ∧ c.sys.staked a ≤ c'.sys.staked a ∧
      c.sys.memBytes a ≤ c'.sys.memBytes a := by
  have hc' := hc.step h
  rcases hc.market with hclosed | ⟨core, quote₀, hopen⟩
  · obtain ⟨hhold, hstaked, hbytes⟩ := holding_of_closed (a := a) hc hclosed
    rw [hhold, hstaked, hbytes]
    exact ⟨hc'.holding_nonneg a, (hc'.staked a).1, hc'.memBytes_nonneg a⟩
  rcases step_moves h hc.toSettled with ⟨ctx, b, rfl, hsys, htoken⟩ |
    ⟨ms, s, hran⟩
  · have hcore' : c'.sys.market.coreSymbol = .ok core := by
      rw [hsys]
      exact hopen.coreSymbol
    have hle := balances_le_of_not_hasAuth htoken hauth core.code
    rw [holding, holding, liquid_of_core hopen.coreSymbol,
      liquid_of_core hcore', hsys]
    exact ⟨by omega, le_refl _, le_refl _⟩
  · have hsigner : ∀ m ∈ ms, ¬ m.Signer a ∧ m.Fair := fun m hm =>
      ⟨fun hsign => hauth (Event.authorizedBy_of_signer hran.moves hm hsign),
        Event.fair_of_moves hran.moves hm⟩
    have hend := hran.run.invariant (I := fun s => OpenBooks core quote₀ s ∧
        c.sys.pending c.token core.code a + c.sys.owed a ≤
          s.pending c.token core.code a + s.owed a ∧
        c.sys.staked a ≤ s.staked a ∧ c.sys.memBytes a ≤ s.memBytes a)
      (fun m => ¬ m.Signer a ∧ m.Fair)
      (fun s m s' hp hall hm => by
        obtain ⟨hs, hhold, hstaked, hbytes⟩ := hall
        exact ⟨hm.openBooks hs,
          hhold.trans (hm.pending_owed_le hs hp.1 hp.2 ha),
          hstaked.trans (hm.staked_le hp.1 hp.2),
          hbytes.trans (hm.memBytes_le hs.1 hp.1)⟩)
      hsigner ⟨⟨hopen, hc.stakes⟩, le_refl _, le_refl _, le_refl _⟩
    obtain ⟨hs, hhold, hstaked, hbytes⟩ := hend
    refine ⟨?_, ?_, ?_⟩
    · rwa [holding, holding, hran.owed, hran.liquid_eq hs.1,
        hc.liquid_eq hopen]
    · rw [hran.sys]
      exact hstaked
    · rw [hran.sys]
      exact hbytes

end Chain

/-- **No action takes another account's wealth.**  What an ordinary account
holds, the stake it votes with and the bytes it has bought do not fall by an
event that it has not authorised. -/
theorem wealth_not_taken {env : Env} {c c' : Chain} {e : Event} {a : Name}
    (hreach : Chain.Reachable env c) (hstep : Chain.Step env c e c')
    (ha : a ∉ systemAccounts) (hauth : ¬ e.AuthorizedBy a) :
    c.holding a ≤ c'.holding a ∧ c.sys.staked a ≤ c'.sys.staked a ∧
      c.sys.memBytes a ≤ c'.sys.memBytes a :=
  hreach.books.wealth_le hstep hauth ha

/-- A stake that alice gives to bob takes nothing from bob. -/
theorem wealth_not_taken_sample : ∃ c c' : Chain,
    c.sys.staked bob = 0 ∧ c'.sys.staked bob = 11 ∧
    c.holding bob ≤ c'.holding bob := by
  have hsample : SampleRun [] (fun _ c => Finishes (Chain.exec sampleEnv c
      (.system (.signedBy alice 2)
        (.delegatebw alice bob ⟨5, inrSymbol⟩ ⟨6, inrSymbol⟩ true)))
      (fun c' => c.sys.staked bob = 0 ∧ c'.sys.staked bob = 11)) := by
    decide +kernel
  obtain ⟨_, c, hreach, c', hstep, hbefore, hafter⟩ := hsample.reachable
  refine ⟨c, c', hbefore, hafter, (wealth_not_taken hreach hstep ?_ ?_).1⟩
  · decide
  · simp only [Event.AuthorizedBy]
    decide

end Inery
