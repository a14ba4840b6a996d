import IneryContracts.StakeWithdrawal

/-!
# Whoever has staked can leave

From every state the owner of a stake can get out alone: it takes back what it
has staked from one receiver after the other, waits for the delay, and is paid.
Nobody else has to act, and nobody else's holding changes.
-/

namespace Inery

open GuardedStep LedgerVector LabelledRun MachineInt

/-! ## The time of a request -/

/-- A pending refund has been requested in the past. -/
def Requested (slot : UInt32) (p : Refunding) : Prop :=
  ∀ row, p.row = some row → ∀ ctx : Ctx, slot ≤ ctx.slot →
    row.requestTime * 1000000 ≤ ctx.currentTimePoint

/-- A refund that has been asked for stays so. -/
theorem Requested.mono {slot slot' : UInt32} {p : Refunding}
    (h : Requested slot p) (hle : slot ≤ slot') : Requested slot' p :=
  fun row hrow ctx hctx => h row hrow ctx (UInt32.le_trans hle hctx)

/-- A move of a refund leaves it as one that has been asked for. -/
theorem RefundStep.requested {ctx : Ctx} {k : Name} {p p' : Refunding}
    {m : RefundMove} (h : Requested ctx.slot p)
    (hstep : RefundStep ctx k p m p') : Requested ctx.slot p' := by
  intro row hrow ctx' hctx
  cases m with
  | kept =>
      obtain rfl : p' = p := hstep
      exact h row hrow ctx' hctx
  | cancelled =>
      obtain rfl : p' = { p with scheduled := none } := hstep
      exact h row hrow ctx' hctx
  | renewed unstaking =>
      obtain ⟨_, row', rfl, _, htime⟩ := hstep
      cases hrow
      cases unstaking with
      | true =>
          have hnow : row.requestTime = ctx.secSinceEpoch := htime
          have hmono := Ctx.currentTimePoint_mono hctx
          unfold Ctx.secSinceEpoch at hnow
          omega
      | false =>
          obtain ⟨old, hold, hsame⟩ : ∃ old, p.row = some old ∧
            row.requestTime = old.requestTime := htime
          rw [hsame]
          exact h old hold ctx' hctx
  | closed =>
      obtain rfl : p' = ⟨none, none⟩ := hstep
      cases hrow
  | paid =>
      obtain ⟨_, _, _, rfl⟩ := hstep
      cases hrow

/-- Every refund of a run has been asked for by then. -/
theorem Chain.requested_run {env : Env} {es : List Event} {c : Chain}
    (hrun : Run (Chain.Step env) (.genesis env) es c) (k : Name) :
    Requested c.slot (c.sys.refunding k) := by
  refine hrun.invariant (I := fun c => Requested c.slot (c.sys.refunding k))
    (fun _ => True) ?_ (fun _ _ => trivial) (fun row hrow => by cases hrow)
  intro c e c' _ hc hstep
  obtain ⟨hle, hslot, _⟩ := Chain.step_cases hstep
  obtain ⟨ms, _, hmoves⟩ := Chain.step_refunding hstep k
  rw [hslot]
  exact hmoves.invariant (fun _ => True)
    (fun _ _ _ _ hq hmove => hmove.requested hq) (fun _ _ => trivial)
    (hc.mono hle)

/-! ## Taking everything back -/

/-- A stake that is not zero weighs something. -/
theorem weight_pos {x : ℤ × ℤ} (hx : 0 ≤ x) (hne : x ≠ 0) : 0 < weight x := by
  have hfst : 0 ≤ x.1 := hx.1
  have hsnd : 0 ≤ x.2 := hx.2
  unfold weight
  by_contra hle
  exact hne (Prod.ext (by dsimp only [Prod.fst_zero]; omega)
    (by dsimp only [Prod.snd_zero]; omega))

/-- The owner alone takes back all that it has staked with a receiver. -/
def Chain.takesBack (c : Chain) (core : Symbol) (o r : Name) : Event :=
  .system (.signedBy o c.slot)
    (.undelegatebw o r ⟨(c.sys.delegated o r).1, core⟩
      ⟨(c.sys.delegated o r).2, core⟩)

/-- The owner alone asks for its refund. -/
def asksRefund (o : Name) (slot : UInt32) (isAccount : Name → Bool) : Event :=
  .system ⟨[⟨o, activePermission⟩], slot, isAccount⟩ (.refund o)

namespace Chain

variable {env : Env} {c c' : Chain} {ctx : Ctx} {o r : Name} {es : List Event}

/-- A stake that is taken back as a whole. -/
theorem Unstaking.unstakes_all (env : Env) (hc : c.Unstaking)
    (hslot : c.slot ≤ ctx.slot) (hauth : ctx.HasAuth o) (hfree : o ≠ b1Account)
    {core : Symbol} (hcore : c.sys.market.coreSymbol = .ok core)
    (hsome : c.sys.delegated o r ≠ 0) : ∃ c',
      Step env c (.system ctx (.undelegatebw o r
        ⟨(c.sys.delegated o r).1, core⟩ ⟨(c.sys.delegated o r).2, core⟩)) c' ∧
      ∀ x, c'.sys.delegated o x =
        if x = r then 0 else c.sys.delegated o x := by
  have hnonneg := hc.books.stakes.delegated_nonneg o r
  have hcan : c.CanUnstake ctx o r ⟨(c.sys.delegated o r).1, core⟩
      ⟨(c.sys.delegated o r).2, core⟩ :=
    { slot := hslot
      auth := hauth
      core := hcore
      symbol := rfl
      nonneg := ⟨hnonneg.1, hnonneg.2⟩
      pos := weight_pos hnonneg hsome
      enoughNet := le_refl _
      enoughCpu := le_refl _
      vested := if_neg hfree }
  obtain ⟨c', hstep⟩ := hc.unstakes env hcan
  refine ⟨c', hstep, fun x => ?_⟩
  rw [hc.delegated_unstaked hstep, Pi.add_apply, Pi.add_apply, cell_apply]
  by_cases hx : x = r
  · subst hx
    rw [if_pos ⟨rfl, rfl⟩, if_pos rfl]
    exact add_neg_cancel _
  · rw [if_neg (fun h => hx h.2), if_neg hx, add_zero]

/-- A state on the way out of `o`: reached without the stake account, at the
time of `c₀` and with the same tokens, where everybody holds what it held there
and `o` has its stakes with the receivers `rs` left. -/
structure Leaving (env : Env) (c₀ : Chain) (o : Name) (rs : List Name)
    (c : Chain) : Prop where
  run : ∃ es, Run (OwnVoteStep env) (genesis env) es c ∧
    ∀ e ∈ es, ¬ e.TopLevelBy stakeAccount
  slot : c.slot = c₀.slot
  token : c.token = c₀.token
  market : c.sys.market = c₀.sys.market
  holding : ∀ a, a ≠ stakeAccount → c.holding a = c₀.holding a
  nodup : rs.Nodup
  staked : ∀ r ∈ rs, c₀.sys.delegated o r ≠ 0
  left : ∀ r, c.sys.delegated o r =
    if r ∈ rs then c₀.sys.delegated o r else 0

section Leaving

variable {c₀ : Chain} {core : Symbol} {rs : List Name}

/-- On the way out the state is still one stakes can be taken from. -/
theorem Leaving.unstaking (h : c₀.Leaving env o rs c) : c.Unstaking := by
  obtain ⟨es, hrun, hstake⟩ := h.run
  exact unstaking_run hrun hstake

/-- The refunds met on the way out have been asked for by then. -/
theorem Leaving.requested (h : c₀.Leaving env o rs c) (k : Name) :
    Requested c.slot (c.sys.refunding k) := by
  obtain ⟨es, hrun, _⟩ := h.run
  exact requested_run (hrun.mono (fun _ => True) (fun _ _ _ _ h => h.1)
    (fun _ _ => trivial)) k

/-- When no receiver is left, nothing is staked. -/
theorem Leaving.staker_eq_zero (h : c₀.Leaving env o [] c) :
    c.sys.staker o = 0 := by
  unfold SysState.staker rowTotals
  rw [Finset.sum_eq_zero (fun r _ => h.left r)]
  rfl

/-- Nothing is paid out on the way. -/
theorem Leaving.liquid (h : c₀.Leaving env o rs c) : c.liquid = c₀.liquid := by
  rw [Chain.liquid, Chain.liquid, h.market, h.token]

/-- **One stake is taken back.** -/
theorem Leaving.takes (hstake : o ≠ stakeAccount) (hfree : o ≠ b1Account)
    (hcore : c₀.sys.market.coreSymbol = .ok core)
    (h : c₀.Leaving env o (r :: rs) c) :
    ∃ c', Step env c (c₀.takesBack core o r) c' ∧
      c₀.Leaving env o rs c' := by
  obtain ⟨es, hrun, hunsigned⟩ := h.run
  have hc := h.unstaking
  have hleft : c.sys.delegated o r = c₀.sys.delegated o r :=
    (h.left r).trans (if_pos List.mem_cons_self)
  have hauth : (Ctx.signedBy o c₀.slot).HasAuth o :=
    ⟨_, List.mem_cons_self, rfl⟩
  obtain ⟨c', hstep, hdelegated⟩ := hc.unstakes_all env
    (by rw [h.slot]; exact UInt32.le_refl _) hauth hfree (h.market ▸ hcore)
    (hleft ▸ h.staked r List.mem_cons_self)
  rw [hleft] at hstep
  have hstaking : (c₀.takesBack core o r).IsStaking := trivial
  have hother : ¬ (c₀.takesBack core o r).TopLevelBy stakeAccount := by
    rintro ⟨level, hlevel, hactor⟩
    rw [List.mem_singleton.mp hlevel] at hactor
    exact hstake hactor
  obtain ⟨hfresh, hnodup⟩ := List.nodup_cons.mp h.nodup
  refine ⟨c', hstep,
    { run := ⟨es ++ [_], hrun.snoc ⟨hstep, trivial⟩, fun e he => ?_⟩
      slot := (step_cases hstep).2.1
      token := (hc.token_unstaked hstep).trans h.token
      market := (hc.market_unstaked hstep).trans h.market
      holding := fun a ha => ?_
      nodup := hnodup
      staked := fun x hx => h.staked x (List.mem_cons_of_mem r hx)
      left := fun x => ?_ }⟩
  · rcases List.mem_append.mp he with he | he
    · exact hunsigned e he
    · rw [List.mem_singleton.mp he]
      exact hother
  · rw [hc.books.holding_staking hstaking hstep ha, h.holding a ha]
    exact add_zero _
  · rw [hdelegated]
    by_cases hx : x = r
    · rw [if_pos hx, if_neg (hx ▸ hfresh)]
    · rw [if_neg hx, h.left]
      simp [hx]

/-- **All stakes are taken back.** -/
theorem Leaving.takes_all (hstake : o ≠ stakeAccount) (hfree : o ≠ b1Account)
    (h : c₀.Leaving env o rs c) : ∃ core c',
      Run (Step env) c (rs.map (c₀.takesBack core o)) c' ∧
      c₀.Leaving env o [] c' := by
  obtain ⟨core, hcore⟩ : ∃ core, rs = [] ∨
      c₀.sys.market.coreSymbol = .ok core := by
    rw [← h.market]
    rcases h.unstaking.books.market with hclosed | ⟨core, _, hopen⟩
    · cases rs with
      | nil => exact ⟨inrSymbol, .inl rfl⟩
      | cons r rs =>
          have hsome := h.staked r List.mem_cons_self
          rw [← (h.left r).trans (if_pos List.mem_cons_self)] at hsome
          exact absurd (view_of_none (hclosed.delband o r)) hsome
    · exact ⟨core, .inr hopen.coreSymbol⟩
  refine ⟨core, ?_⟩
  rcases hcore with rfl | hcore
  · exact ⟨c, .nil c, h⟩
  · exact Run.exists_of_tasks
      (fun r rs d hd => hd.takes hstake hfree hcore) rs h

/-- What has been taken back is paid out after the delay. -/
theorem Leaving.paid {isAccount : Name → Bool} {slot : UInt32}
    {row : RefundRequest} (h : c₀.Leaving env o [] c)
    (hstake : o ≠ stakeAccount)
    (htaker : isAccount o = true ∧ o ≠ accountCreator)
    (hinr : (c₀.token.accountOf stakeAccount inrCode).isSome)
    (hslot : c₀.slot.toNat + 518400 ≤ slot.toNat)
    (hrow : c.sys.refunds.find o = some row) :
    ∃ c', Step env c (asksRefund o slot isAccount) c' ∧ c'.sys.owed o = 0 ∧
      ∀ a, a ≠ stakeAccount → c'.holding a = c.holding a := by
  have hrefunding := h.unstaking.toRefunding
  have hlater : c.slot ≤ slot := by
    rw [h.slot, UInt32.le_iff_toNat_le]
    omega
  have hdue : (row.requestTime + refundDelaySec) * 1000000 ≤
      (Ctx.mk [⟨o, activePermission⟩] slot isAccount).currentTimePoint := by
    have hpast : row.requestTime * 1000000 ≤
        (Ctx.mk [] c.slot isAccount).currentTimePoint :=
      h.requested o row hrow _ (UInt32.le_refl _)
    rw [h.slot] at hpast
    unfold Ctx.currentTimePoint at *
    unfold refundDelaySec secondsPerDay
    dsimp only at *
    omega
  obtain ⟨c', hstep⟩ : Succeeds (exec env c (asksRefund o slot isAccount)) :=
    hrefunding.refunds env hrow
      ⟨hlater, ⟨_, List.mem_cons_self, rfl⟩, htaker, hdue, h.token ▸ hinr⟩
  have hstaking : (asksRefund o slot isAccount).IsStaking := trivial
  have hholding : ∀ a, a ≠ stakeAccount → c'.holding a = c.holding a := by
    intro a ha
    rw [hrefunding.books.holding_staking hstaking hstep ha]
    exact add_zero _
  refine ⟨c', hstep, ?_, hholding⟩
  -- the payment is all that was owed
  obtain ⟨row', hrow', _, _, hliquid⟩ := hrefunding.refunds_ok hstep
  cases hrow.symm.trans hrow'
  have howed : c.sys.owed o =
      row.netAmount.amount + row.cpuAmount.amount := by
    rw [SysState.owed_eq, Pi.add_apply, h.staker_eq_zero, zero_add,
      SysState.refunded, view_of_find hrow]
    rfl
  have hsame : c'.liquid o + c'.sys.owed o = c.liquid o + c.sys.owed o :=
    hholding o hstake
  rw [hliquid, Pi.add_apply, payment_apply, if_pos rfl, if_neg hstake,
    howed] at hsame
  omega

end Leaving

end Chain

/-- **Whoever has staked can leave.**  In every run in which the stake account
signs nothing itself, and in which no vote for somebody else is cast with a
negative weight, the owner of a stake can take back everything alone: it signs
one `undelegatebw` for each receiver of its stake and, three days later or at
any time after that, one `refund`, unless nothing was staked or pending.  All of
them succeed, and then nothing is staked or pending and everything it held is in
its balance.  Nobody else's holding changes on the way. -/
theorem stakes_exit {env : Env} {es : List Event} {c : Chain} {o : Name}
    {isAccount : Name → Bool} {slot : UInt32}
    (hrun : Run (Chain.OwnVoteStep env) (.genesis env) es c)
    (hstake : ∀ e ∈ es, ¬ e.TopLevelBy stakeAccount)
    (howner : o ≠ stakeAccount ∧ o ≠ accountCreator ∧ o ≠ b1Account)
    (htaker : isAccount o = true)
    (hinr : (c.token.accountOf stakeAccount inrCode).isSome)
    (hslot : c.slot.toNat + 518400 ≤ slot.toNat) :
    ∃ (rs : List Name) (core : Symbol) (last : List Event) (c' : Chain),
      rs.Nodup ∧ (∀ r, r ∈ rs ↔ c.sys.delegated o r ≠ 0) ∧
      (last = [asksRefund o slot isAccount] ∨ last = [] ∧ c.sys.owed o = 0) ∧
      Run (Chain.Step env) c (rs.map (c.takesBack core o) ++ last) c' ∧
      c'.sys.owed o = 0 ∧ c'.liquid o = c.holding o ∧
      ∀ a, a ≠ stakeAccount → c'.holding a = c.holding a := by
  obtain ⟨rs, hnodup, hrs⟩ : ∃ rs : List Name, rs.Nodup ∧
      ∀ r, r ∈ rs ↔ c.sys.delegated o r ≠ 0 :=
    ⟨(Finset.univ.filter (fun r => c.sys.delegated o r ≠ 0)).toList,
      Finset.nodup_toList _, by simp⟩
  have hc : c.Leaving env o rs c :=
    { run := ⟨es, hrun, hstake⟩
      slot := rfl
      token := rfl
      market := rfl
      holding := fun _ _ => rfl
      nodup := hnodup
      staked := fun r hr => (hrs r).mp hr
      left := fun r => by
        split
        · rfl
        · next hr => exact not_not.mp (fun hne => hr ((hrs r).mpr hne)) }
  obtain ⟨core, d, hback, hd⟩ := hc.takes_all howner.1 howner.2.2
  cases hrow : d.sys.refunds.find o with
  | none =>
      have howed : d.sys.owed o = 0 := by
        rw [SysState.owed_eq, Pi.add_apply, hd.staker_eq_zero,
          SysState.refunded, view_of_none hrow]
        rfl
      have hholding := hd.holding o howner.1
      rw [Chain.holding, howed, add_zero] at hholding
      have hsame := hholding
      rw [hd.liquid, Chain.holding] at hsame
      exact ⟨rs, core, [], d, hnodup, hrs, .inr ⟨rfl, by omega⟩,
        by rwa [List.append_nil], howed, hholding, hd.holding⟩
  | some row =>
      obtain ⟨c', hstep, howed, hholding⟩ := hd.paid howner.1
        ⟨htaker, howner.2.1⟩ hinr hslot hrow
      refine ⟨rs, core, _, c', hnodup, hrs, .inl rfl, hback.snoc hstep, howed,
        ?_, fun a ha => (hholding a ha).trans (hd.holding a ha)⟩
      rw [← hd.holding o howner.1, ← hholding o howner.1, Chain.holding,
        howed, add_zero]

/-- Alice, who has 500 units staked and as many pending, takes her one stake
back and gets all of them. -/
theorem stakes_exit_sample : ∃ (c : Chain) (rs : List Name) (core : Symbol)
    (last : List Event) (c' : Chain),
    c.sys.delegated alice alice = (400, 100) ∧
    weight (c.sys.refunded alice) = 500 ∧ alice ∈ rs ∧
    Run (Chain.Step sampleEnv) c (rs.map (c.takesBack core alice) ++ last) c' ∧
    c'.liquid alice = c.holding alice := by
  have hsample : SampleRun refundingEvents (fun _ c =>
      c.slot = 5 ∧ c.sys.delegated alice alice = (400, 100) ∧
      c.sys.refunded alice = (300, 200) ∧
      (c.token.accountOf stakeAccount inrCode).isSome = true) := by
    decide +kernel
  obtain ⟨c₀, c₁, c, hbefore, hinit, hafter, hslot, hdelegated, hrefunded,
    hinr⟩ := hsample.runs
  have hown : ∀ c e c', e ∈ openingEvents ++
        [.system (.signedBy systemAccount 1) (.init 0 inrSymbol)] ++
        refundingEvents →
      Chain.Step sampleEnv c e c' → Chain.OwnVoteStep sampleEnv c e c' := by
    intro c e c' he hstep
    refine ⟨hstep, ?_⟩
    simp only [openingEvents, refundingEvents, List.cons_append,
      List.nil_append, List.mem_cons, List.not_mem_nil, or_false] at he
    rcases he with rfl | rfl | rfl | rfl | rfl | rfl | rfl <;> trivial
  have hrun := ((hbefore.append (.single hinit)).append hafter).mono _
    hown (fun _ he => he)
  obtain ⟨rs, core, last, c', _, hrs, _, hleave, _, hliquid, _⟩ :=
    @stakes_exit sampleEnv _ c alice (fun _ => true) 518405 hrun
      unsigned_refunding (by decide) rfl hinr (by rw [hslot]; decide)
  exact ⟨c, rs, core, last, c', hdelegated, by rw [hrefunded]; rfl,
    (hrs alice).mpr (by rw [hdelegated]; decide), hleave, hliquid⟩

end Inery
