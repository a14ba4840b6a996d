import IneryContracts.RefundMoves
import IneryContracts.StakeSolvency

/-!
# Unstaked tokens are locked

The time of a refund row is never earlier than any call by which its owner has
taken stake back: a call that adds to the row renews the time, and a call that
uses the row up leaves the time alone.  What is paid is then due for all of
these calls.
-/

namespace Inery

open GuardedStep LedgerVector LabelledRun MachineInt

/-- The account takes stake back. -/
def Event.Unstakes (o : Name) : Event → Prop
  | system _ (.undelegatebw from' _ _ _) => from' = o
  | system _ (.sellres account _) => account = o
  | _ => False

/-! ## The time of a row -/

/-- A row of `k` is not older than the calls by which `k` took stake back. -/
def LockedSince (ds : List Event) (k : Name) (p : Refunding) : Prop :=
  ∀ row, p.row = some row → k ≠ stakeAccount ∧
    ∀ d ∈ ds, d.Unstakes k → d.ctx.secSinceEpoch ≤ row.requestTime

section Locks

variable {ds : List Event} {k : Name} {p p' : Refunding} {e : Event}
  {ms : List RefundMove}

/-- No step makes a row look older. -/
theorem RefundStep.locked {ctx : Ctx} {m : RefundMove}
    (hpast : ∀ d ∈ ds, d.ctx.secSinceEpoch ≤ ctx.secSinceEpoch)
    (h : LockedSince ds k p) (hstep : RefundStep ctx k p m p') :
    LockedSince ds k p' := by
  intro row hrow
  cases m with
  | kept =>
      obtain rfl : p' = p := hstep
      exact h row hrow
  | cancelled =>
      obtain rfl : p' = { p with scheduled := none } := hstep
      exact h row hrow
  | renewed unstaking =>
      obtain ⟨hk, row', rfl, _, htime⟩ := hstep
      cases hrow
      refine ⟨hk, fun d hd hun => ?_⟩
      cases unstaking with
      | true =>
          have hnow : row.requestTime = ctx.secSinceEpoch := htime
          rw [hnow]
          exact hpast d hd
      | false =>
          obtain ⟨old, hold, hsame⟩ : ∃ old, p.row = some old ∧
            row.requestTime = old.requestTime := htime
          rw [hsame]
          exact (h old hold).2 d hd hun
  | closed =>
      obtain rfl : p' = ⟨none, none⟩ := hstep
      cases hrow
  | paid =>
      obtain ⟨_, _, _, rfl⟩ := hstep
      cases hrow

/-- Taking stake back renews the row at once, or leaves none. -/
theorem Event.RefundMoves.unstaked (hms : e.RefundMoves k ms)
    (hun : e.Unstakes k) (hk : k ≠ stakeAccount) :
    ms = [.renewed true] ∨ ms = [.closed] := by
  have hbooked : ∀ {receiver m}, Undelegates k receiver k m → ms = [m] →
      ms = [.renewed true] ∨ ms = [.closed] := by
    rintro receiver m hm rfl
    rcases hm.cases with ⟨_, hstake | hne⟩ | rfl | rfl
    · exact absurd hstake hk
    · exact absurd rfl hne
    · exact .inl rfl
    · exact .inr rfl
  cases e with
  | token ctx a => exact hun.elim
  | deferred slot isAccount owner => exact hun.elim
  | system ctx a =>
      cases a
      case undelegatebw from' receiver net cpu =>
        obtain rfl : from' = k := hun
        obtain ⟨m, hm, hsingle⟩ := hms
        exact hbooked hm hsingle
      case sellres account bytes =>
        obtain rfl : account = k := hun
        obtain ⟨m, hm, hsingle⟩ := hms
        exact hbooked hm hsingle
      all_goals exact hun.elim

/-- **Locks are kept by every event.** -/
theorem Event.RefundMoves.locked (hms : e.RefundMoves k ms)
    (hrun : Run (RefundStep e.ctx k) p ms p')
    (hpast : ∀ d ∈ ds, d.ctx.secSinceEpoch ≤ e.ctx.secSinceEpoch)
    (h : LockedSince ds k p) : LockedSince (ds ++ [e]) k p' := by
  have hkeep : LockedSince ds k p' :=
    hrun.invariant (fun _ => True)
      (fun _ _ _ _ hq hstep => hstep.locked hpast hq) (fun _ _ => trivial) h
  intro row hrow
  obtain ⟨hk, hold⟩ := hkeep row hrow
  refine ⟨hk, fun d hd hun => ?_⟩
  rcases List.mem_append.mp hd with hd | hd
  · exact hold d hd hun
  · rw [List.mem_singleton.mp hd] at hun ⊢
    rcases hms.unstaked hun hk with rfl | rfl
    · obtain ⟨_, row', rfl, _, htime⟩ := hrun.of_single
      cases hrow
      exact (show row.requestTime = e.ctx.secSinceEpoch from htime).ge
    · obtain rfl : p' = ⟨none, none⟩ := hrun.of_single
      cases hrow

/-- What is paid was due. -/
theorem Event.RefundMoves.paid (hms : e.RefundMoves k ms)
    (hrun : Run (RefundStep e.ctx k) p ms p') (he : e.Refunds k)
    {row : RefundRequest} (hrow : p.row = some row) (hgone : p'.row = none) :
    (row.requestTime + refundDelaySec) * 1000000 ≤
      e.ctx.currentTimePoint := by
  have hpays : ∀ {q : Refunding}, q.row = some row →
      RefundStep e.ctx k q .paid p' →
      (row.requestTime + refundDelaySec) * 1000000 ≤
        e.ctx.currentTimePoint := by
    rintro q hq ⟨row', hrow', hdue, _⟩
    cases hq.symm.trans hrow'
    exact hdue
  cases e with
  | token ctx a => exact he.elim
  | system ctx a =>
      cases a
      case refund owner =>
        obtain rfl : owner = k := he
        obtain rfl : ms = [if owner = owner then .paid else .kept] := hms
        rw [if_pos rfl] at hrun
        exact hpays hrow hrun.of_single
      all_goals exact he.elim
  | deferred slot isAccount owner =>
      obtain rfl : owner = k := he
      rcases (if_pos rfl).mp hms with rfl | rfl
      · obtain rfl : p' = { p with scheduled := none } := hrun.of_single
        rw [hrow] at hgone
        cases hgone
      · obtain ⟨q, hfirst, hsecond⟩ := hrun.uncons
        obtain rfl : q = { p with scheduled := none } := hfirst
        exact hpays (q := { p with scheduled := none }) hrow
          hsecond.of_single

end Locks

/-! ## What leaves the stake account -/

section Moves

variable {s s' : SysState} {t : TokenState} {e : Event} {ms : List Move}
  {o : Name}

/-- Of all moves only a refund takes from the stake account, unless it signs
the move itself. -/
theorem Moved.pending_stake_le {m : Move} (hmove : Moved s m s')
    (hsigner : ¬ m.Signer stakeAccount) (hrefund : ∀ o, m ≠ .refunded o)
    (code : SymbolCode) :
    s.pending t code stakeAccount ≤ s'.pending t code stakeAccount := by
  have hne : stakeAccount ≠ memAccount := by decide
  have hsent : ∀ {l : List InlineAction}, s'.outbox = s.outbox ++ l →
      0 ≤ Chain.sentFlow code l stakeAccount →
      s.pending t code stakeAccount ≤ s'.pending t code stakeAccount := by
    intro l hout hflow
    rw [pending_append hout, Pi.add_apply]
    omega
  cases m with
  | rest => rw [pending_congr hmove.outbox]
  | payroll =>
      exact pending_le_of_payroll hmove code (by decide) (by decide)
        (by decide)
  | opened =>
      obtain ⟨_, _, rfl⟩ := hmove
      exact le_refl _
  | grown bytes =>
      obtain ⟨_, _, rfl⟩ := hmove
      exact le_refl _
  | rated =>
      obtain ⟨_, rfl⟩ := hmove
      exact le_refl _
  | bought payer receiver quant bytes =>
      obtain ⟨_, _, _, _, _, _, _, rfl⟩ := hmove
      have hpayer : stakeAccount ≠ payer := fun h => hsigner h.symm
      refine hsent rfl ?_
      simp [Chain.sentFlow, TokenAction.transfer_flow_of_ne hpayer hne]
  | sold account bytes tokens =>
      obtain ⟨_, _, _, _, _, _, rfl⟩ := hmove
      exact le_refl _
  | paidOut account tokens =>
      obtain ⟨_, rfl⟩ := hmove
      have haccount : stakeAccount ≠ account := fun h => hsigner h.symm
      refine hsent rfl ?_
      simp [Chain.sentFlow, TokenAction.transfer_flow_of_ne hne haccount]
  | staked source owner receiver dn dc ρ =>
      have hsource : source ≠ stakeAccount := hsigner
      rcases hmove.2.payment with ⟨_, _, hout⟩ | ⟨_, hpos, hout⟩
      · rw [pending_congr hout]
      · refine hsent hout ?_
        unfold System.stakePayment
        split
        · simpa [Chain.sentFlow] using
            TokenAction.transfer_flow_nonneg hsource hpos code
        · simp [Chain.sentFlow]
  | refunded owner => exact absurd rfl (hrefund owner)
  | created account =>
      obtain ⟨_, _, _, _, _, _, rfl⟩ := hmove
      exact le_refl _

/-- A refund is paid alone. -/
theorem Event.refunded_alone (hms : e.Moves ms) (hm : .refunded o ∈ ms) :
    e.Refunds o ∧ (ms = [.refunded o] ∨ ms = [.rest, .refunded o]) := by
  have he : e.Refunds o := Event.partOf_of_moves hms hm
  refine ⟨he, ?_⟩
  cases e with
  | token ctx a => exact he.elim
  | deferred slot isAccount owner =>
      obtain rfl : owner = o := he
      rcases hms with rfl | rfl
      · simp at hm
      · exact .inr rfl
  | system ctx a =>
      cases a
      case refund owner =>
        obtain rfl : owner = o := he
        exact .inl hms.2
      all_goals exact he.elim

/-- What the payment of a refund does to the balances of every token. -/
theorem Moved.pending_refunded (hmove : Moved s (.refunded o) s')
    (code : SymbolCode) :
    ∃ row, s.refunds.find o = some row ∧
      s'.refunds = s.refunds.erase o ∧
      s'.pending t code = s.pending t code +
        if code = row.netAmount.symbol.code then payment stakeAccount o
          (row.netAmount.amount + row.cpuAmount.amount)
        else 0 := by
  obtain ⟨row, hrow, rfl⟩ := hmove
  refine ⟨row, hrow, rfl, ?_⟩
  rw [pending_append (s := s) rfl]
  simp only [Chain.sentFlow, List.map_cons, List.map_nil, List.sum_cons,
    List.sum_nil, add_zero, TokenAction.flow, payment]

end Moves

namespace Chain

/-- **Only a refund takes from the stake account**, and all of it is paid to
the owner, as long as the stake account does not sign itself. -/
theorem Settled.stake_falls {env : Env} {c c' : Chain} {e : Event}
    (hc : c.Settled) (hstep : Step env c e c')
    (htop : ¬ e.TopLevelBy stakeAccount) {code : SymbolCode}
    (hfall : c'.token.balances code stakeAccount <
      c.token.balances code stakeAccount) :
    ∃ o row, e.Refunds o ∧ c.sys.refunds.find o = some row ∧
      c'.sys.refunds.find o = none ∧
      c'.token.balances code = c.token.balances code +
        payment stakeAccount o
          (row.netAmount.amount + row.cpuAmount.amount) := by
  rcases step_moves hstep hc with ⟨ctx, a, rfl, _, htoken⟩ | ⟨ms, s, hran⟩
  · have hle := balances_le_of_not_hasAuth htoken htop code
    omega
  rw [hran.balances, ← hc.pending] at hfall ⊢
  by_cases hpaid : ∃ o, .refunded o ∈ ms
  · obtain ⟨o, ho⟩ := hpaid
    obtain ⟨he, hms⟩ := Event.refunded_alone hran.moves ho
    have hlast : ∃ s₁, s₁.refunds = c.sys.refunds ∧
        s₁.outbox = c.sys.outbox ∧ Moved s₁ (.refunded o) s := by
      have hrun := hran.run
      rcases hms with rfl | rfl
      · exact ⟨c.sys, rfl, rfl, hrun.of_single⟩
      · obtain ⟨s₁, hrest, hpay⟩ := hrun.uncons
        exact ⟨s₁, hrest.refunds, hrest.outbox, hpay.of_single⟩
    obtain ⟨s₁, hrefunds, hout, hmove⟩ := hlast
    obtain ⟨row, hrow, herase, hpending⟩ :=
      hmove.pending_refunded (t := c.token) code
    rw [hrefunds] at hrow herase
    rw [pending_congr hout] at hpending
    rw [hpending] at hfall ⊢
    have hcode : code = row.netAmount.symbol.code := by
      by_contra hne
      rw [if_neg hne, add_zero] at hfall
      exact lt_irrefl _ hfall
    refine ⟨o, row, he, hrow, ?_, ?_⟩
    · rw [hran.sys]
      show s.refunds.find o = none
      rw [herase, KeyedTable.find_erase, if_pos rfl]
    · rw [if_pos hcode]
  · rw [not_exists] at hpaid
    have hnot : ∀ m ∈ ms, ¬ m.Signer stakeAccount ∧
        ∀ o, m ≠ .refunded o := by
      intro m hm
      have hrefund : ∀ o, m ≠ .refunded o := fun o heq => hpaid o (heq ▸ hm)
      exact ⟨fun hsign => hrefund _
        (Event.refunded_of_signer hran.moves hm hsign htop), hrefund⟩
    have hle := hran.run.invariant
      (I := fun u => c.sys.pending c.token code stakeAccount ≤
        u.pending c.token code stakeAccount)
      (fun m => ¬ m.Signer stakeAccount ∧ ∀ o, m ≠ .refunded o)
      (fun _ _ _ hm hu hmove =>
        hu.trans (hmove.pending_stake_le hm.1 hm.2 code))
      hnot (le_refl _)
    omega

/-! ## Runs -/

/-- No row of a chain is older than the calls that filled it. -/
structure Locked (ds : List Event) (c : Chain) : Prop where
  past : ∀ d ∈ ds, d.ctx.slot ≤ c.slot
  rows : ∀ k, LockedSince ds k (c.sys.refunding k)

theorem Locked.step {env : Env} {c c' : Chain} {ds : List Event} {e : Event}
    (h : c.Locked ds) (hstep : Step env c e c') : c'.Locked (ds ++ [e]) := by
  obtain ⟨hle, hslot, _⟩ := step_cases hstep
  refine ⟨fun d hd => ?_, fun k => ?_⟩
  · rw [hslot]
    rcases List.mem_append.mp hd with hd | hd
    · exact UInt32.le_trans (h.past d hd) hle
    · rw [List.mem_singleton.mp hd]
      exact UInt32.le_refl _
  · obtain ⟨ms, hms, hrun⟩ := step_refunding hstep k
    refine hms.locked hrun (fun d hd => ?_) (h.rows k)
    exact Ctx.secSinceEpoch_mono (UInt32.le_trans (h.past d hd) hle)

theorem Locked.of_run {env : Env} {c : Chain} {es : List Event}
    (hrun : Run (Step env) (.genesis env) es c) : c.Locked es := by
  refine hrun.history (H := fun ds c => Locked ds c) ?_
    (fun _ _ _ _ h hstep => h.step hstep)
  exact ⟨fun d hd => by simp at hd, fun k row hrow => by cases hrow⟩

/-- A refund of the account is paid between two states. -/
def PaysRefund (c c' : Chain) (o : Name) : Prop :=
  (c.sys.refunds.find o).isSome ∧ c'.sys.refunds.find o = none

end Chain

/-- **Unstaked tokens are locked for three days.**  When a refund of an
account is paid, called for or on schedule, 259200 seconds have passed since
the second of every call by which the account took stake back; and whatever
leaves the stake account, unless it signs itself, leaves it in such a payment
and goes to the owner of the refund. -/
theorem unstaked_locked {env : Env} {es : List Event} {c c' : Chain}
    {e : Event} (hrun : Run (Chain.Step env) (.genesis env) es c)
    (hstep : Chain.Step env c e c') :
    (∀ o, e.Refunds o → c.PaysRefund c' o → ∀ d ∈ es, d.Unstakes o →
      (d.ctx.secSinceEpoch + 259200) * 1000000 ≤ e.ctx.currentTimePoint) ∧
    (¬ e.TopLevelBy stakeAccount → ∀ code,
      c'.token.balances code stakeAccount <
        c.token.balances code stakeAccount →
      ∃ o row, e.Refunds o ∧ c.sys.refunds.find o = some row ∧
        c'.sys.refunds.find o = none ∧
        c'.token.balances code = c.token.balances code +
          payment stakeAccount o
            (row.netAmount.amount + row.cpuAmount.amount)) := by
  constructor
  · rintro o he ⟨hsome, hgone⟩ d hd hun
    obtain ⟨row, hrow⟩ := Option.isSome_iff_exists.mp hsome
    obtain ⟨ms, hms, hmoves⟩ := Chain.step_refunding hstep o
    have hdue := hms.paid hmoves he hrow hgone
    have hsince := ((Chain.Locked.of_run hrun).rows o row hrow).2 d hd hun
    have hdelay : refundDelaySec = 259200 := by decide
    rw [hdelay] at hdue
    omega
  · intro htop code hfall
    exact ((Chain.settled_genesis env).run hrun).stake_falls hstep htop hfall

/-- Alice takes half of her stake back. -/
def refundingEvents : List Event :=
  [.system (.signedBy alice 2)
      (.delegatebw alice alice ⟨700, inrSymbol⟩ ⟨300, inrSymbol⟩ false),
    .system (.signedBy alice 5)
      (.undelegatebw alice alice ⟨300, inrSymbol⟩ ⟨200, inrSymbol⟩)]

/-- What alice has taken back is paid on schedule. -/
def scheduledPayment : Event := .deferred 518405 (fun _ => true) alice

/-- In the sample run the payment comes 259200 seconds after the call, and all
of it goes to alice. -/
theorem unstaked_locked_sample : ∃ c c' : Chain,
    Chain.Step sampleEnv c scheduledPayment c' ∧
    ((Ctx.signedBy alice 5).secSinceEpoch + 259200) * 1000000 ≤
      scheduledPayment.ctx.currentTimePoint ∧
    ∃ o row, scheduledPayment.Refunds o ∧
      c.sys.refunds.find o = some row ∧
      c'.token.balances inrCode = c.token.balances inrCode +
        payment stakeAccount o
          (row.netAmount.amount + row.cpuAmount.amount) := by
  have hsample : SampleRun refundingEvents (fun _ c =>
      Finishes (Chain.exec sampleEnv c scheduledPayment) (fun c' =>
        (c.sys.refunds.find alice).isSome = true ∧
        c'.sys.refunds.find alice = none ∧
        c'.token.balances inrCode stakeAccount <
          c.token.balances inrCode stakeAccount)) := by
    decide +kernel
  obtain ⟨c₀, c₁, c, hbefore, hinit, hafter, c', hstep, hsome, hgone, hfall⟩ :=
    hsample.runs
  have hrun := (hbefore.append (.single hinit)).append hafter
  obtain ⟨htime, hleave⟩ := unstaked_locked hrun hstep
  obtain ⟨o, row, he, hrow, _, hbal⟩ := hleave id inrCode hfall
  refine ⟨c, c', hstep, ?_, o, row, he, hrow, hbal⟩
  exact htime alice rfl ⟨hsome, hgone⟩
    (.system (.signedBy alice 5) (.undelegatebw alice alice ⟨300, inrSymbol⟩
      ⟨200, inrSymbol⟩)) (by simp [refundingEvents]) rfl

/-- The stake account sends alice tokens itself. -/
def stakeTransfer : Event :=
  .token (.signedBy stakeAccount 6)
    (.transfer stakeAccount alice ⟨400, inrSymbol⟩ "")

/-- Tokens that the stake account sends itself leave it outside of any
refund. -/
theorem stake_leaves_unlocked : ∃ c c' : Chain,
    Chain.Reachable sampleEnv c ∧
    Chain.Step sampleEnv c stakeTransfer c' ∧
    c'.token.balances inrCode stakeAccount <
      c.token.balances inrCode stakeAccount ∧
    c.token.balances inrCode alice < c'.token.balances inrCode alice ∧
    ∀ o, ¬ stakeTransfer.Refunds o := by
  have hsample : SampleRun refundingEvents (fun _ c =>
      Finishes (Chain.exec sampleEnv c stakeTransfer) (fun c' =>
        c'.token.balances inrCode stakeAccount <
          c.token.balances inrCode stakeAccount ∧
        c.token.balances inrCode alice <
          c'.token.balances inrCode alice)) := by
    decide +kernel
  obtain ⟨_, c, hreach, c', hstep, hfall, hrise⟩ := hsample.reachable
  exact ⟨c, c', hreach, hstep, hfall, hrise, fun _ => id⟩

end Inery
