import IneryContracts.CoreToken
import IneryContracts.ProducerStanding
import IneryContracts.RefundLocks

/-!
# Pending refunds are scheduled

A refund row comes with the transaction that will pay it: whenever a row is
written, its payment is scheduled, and the payment succeeds because the stake
account has what it owes.  The exception are stakes for somebody else, which
cancel the payment and leave the row; runs without them keep the two together.
-/

namespace Inery

open GuardedStep LedgerVector LabelledRun MachineInt

namespace Chain

variable {env : Env} {c c' : Chain} {e : Event}

/-! ## The core token -/

/-- The core token is `INR`, with the precision it was created with. -/
def InrCore (c : Chain) : Prop :=
  ∀ core, c.sys.market.coreSymbol = .ok core → core.code = inrCode ∧
    ∃ st, c.token.statOf core.code = some st ∧ st.supply.symbol = core

theorem InrCore.step (h : c.InrCore) (hc : c.Books) (hstep : Step env c e c')
    (hinr : ∀ ctx version core, e = .system ctx (.init version core) →
      core.code = inrCode) : c'.InrCore := by
  intro core hcore
  by_cases hinit : e.IsInit
  · obtain ⟨hcb, ctx, version, he⟩ := hc.coreBooks_of_init hstep hinit hcore
    exact ⟨hinr ctx version core he, hcb.stat⟩
  · obtain ⟨hcode, st, hst, hsymbol⟩ :=
      h core (hc.coreSymbol_of_step hstep hinit hcore)
    obtain ⟨st', hst', hsame⟩ := step_statOf_symbol hstep hc.toSettled hst
    exact ⟨hcode, st', hst', hsame.trans hsymbol⟩

end Chain

/-! ## Cancellations -/

/-- The action stakes for somebody else than the owner, or gives stake to
it. -/
def SysAction.Cancels (o : Name) : SysAction → Prop
  | delegatebw from' receiver _ _ transfer =>
      Sidesteps from' receiver transfer o
  | buyresources payer receiver _ => Sidesteps payer receiver false o
  | buymembytes payer receiver _ => Sidesteps payer receiver false o
  | _ => False

/-- The event stakes for somebody else than the owner, or gives stake to
it. -/
def Event.Cancels (o : Name) : Event → Prop
  | system _ a => a.Cancels o
  | _ => False

section Cancellations

variable {k : Name} {ms : List RefundMove} {m : RefundMove} {a : SysAction}

/-- The steps of an action that cancels the refund of an account are
cancellations, and no others are. -/
theorem SysAction.RefundMoves.cancels (h : a.RefundMoves k ms) (hm : m ∈ ms) :
    m = .cancelled ↔ a.Cancels k := by
  have hnever : ∀ {m' : RefundMove}, m' ≠ .cancelled → ms = [m'] →
      ¬ a.Cancels k → (m = .cancelled ↔ a.Cancels k) := by
    rintro m' hne rfl hnot
    rw [List.mem_singleton.mp hm]
    exact ⟨fun heq => absurd heq hne, fun hc => absurd hc hnot⟩
  have hunstaked : ∀ {from' receiver m'}, Undelegates from' receiver k m' →
      m' ≠ .cancelled := by
    rintro from' receiver m' hund
    rcases hund.cases with ⟨rfl, _⟩ | rfl | rfl <;> simp
  cases a with
  | delegatebw from' receiver net cpu transfer =>
      obtain ⟨m', hdel, rfl⟩ := h
      rw [List.mem_singleton.mp hm]
      exact hdel.eq_cancelled_iff
  | buyresources payer receiver quant =>
      obtain ⟨m', hdel, rfl⟩ := h
      rw [List.mem_singleton.mp hm]
      exact hdel.eq_cancelled_iff
  | buymembytes payer receiver bytes =>
      obtain ⟨m₁, m₂, hdel₁, hdel₂, rfl⟩ := h
      rcases List.mem_pair.mp hm with rfl | rfl
      · exact hdel₁.eq_cancelled_iff
      · exact hdel₂.eq_cancelled_iff
  | undelegatebw from' receiver net cpu =>
      obtain ⟨m', hund, hms⟩ := h
      exact hnever (hunstaked hund) hms id
  | sellres account bytes =>
      obtain ⟨m', hund, hms⟩ := h
      exact hnever (hunstaked hund) hms id
  | refund owner =>
      refine hnever ?_ h id
      split <;> simp
  | init _ _ | onblock _ _ | setalimits _ _ _ _ | setacctmem _ _
  | setacctnet _ _ | setacctcpu _ _ | regproducer _ _ _ _
  | regproducer2 _ _ _ _ | unregprod _ | setmem _ | setmemrate _
  | makeprod _ _ _ | regproxy _ _ | setparams _ | claimrewards _
  | rmvproducer _ | setinflation _ _ _ | newaccount _ _ | setabi _ _
  | privileged =>
      have hkept : ms = [.kept] := h
      exact hnever (by simp) hkept id

/-- The time of a row is renewed by calls that take stake back. -/
theorem SysAction.RefundMoves.unstakes {ctx : Ctx} (h : a.RefundMoves k ms)
    (hm : .renewed true ∈ ms) : (Event.system ctx a).Unstakes k := by
  have hstaked : ∀ {from' receiver transfer},
      ¬ Delegates from' receiver transfer k (.renewed true) := by
    rintro from' receiver transfer ⟨dn, dc, hdn, hdc, hsettles⟩
    generalize hlabel : RefundMove.renewed true = m at hsettles
    cases hsettles with
    | kept hkept => cases hlabel
    | closed hsource hk hbooked => cases hlabel
    | cancelled hsource hk hnot => cases hlabel
    | renewed hsource hk hbooked =>
        have hun : dn < 0 ∨ dc < 0 := by
          rw [RefundMove.renewed.injEq] at hlabel
          exact of_decide_eq_true hlabel.symm
        omega
  have hunstaked : ∀ {from' receiver},
      Undelegates from' receiver k (.renewed true) → from' = k := by
    rintro from' receiver ⟨dn, dc, _, _, _, hsettles⟩
    generalize hlabel : RefundMove.renewed true = m at hsettles
    cases hsettles with
    | kept hkept => cases hlabel
    | closed hsource hk hbooked => cases hlabel
    | cancelled hsource hk hnot => cases hlabel
    | renewed hsource hk hbooked => exact hk.symm
  cases a with
  | undelegatebw from' receiver net cpu =>
      obtain ⟨m', hund, rfl⟩ := h
      obtain rfl := List.mem_singleton.mp hm
      exact hunstaked hund
  | sellres account bytes =>
      obtain ⟨m', hund, rfl⟩ := h
      obtain rfl := List.mem_singleton.mp hm
      exact hunstaked hund
  | delegatebw from' receiver net cpu transfer =>
      obtain ⟨m', hdel, rfl⟩ := h
      obtain rfl := List.mem_singleton.mp hm
      exact (hstaked hdel).elim
  | buyresources payer receiver quant =>
      obtain ⟨m', hdel, rfl⟩ := h
      obtain rfl := List.mem_singleton.mp hm
      exact (hstaked hdel).elim
  | buymembytes payer receiver bytes =>
      obtain ⟨m₁, m₂, hdel₁, hdel₂, rfl⟩ := h
      rcases List.mem_pair.mp hm with rfl | rfl
      · exact (hstaked hdel₁).elim
      · exact (hstaked hdel₂).elim
  | refund owner =>
      obtain rfl : ms = [if k = owner then .paid else .kept] := h
      have heq := List.mem_singleton.mp hm
      split at heq <;> cases heq
  | init _ _ | onblock _ _ | setalimits _ _ _ _ | setacctmem _ _
  | setacctnet _ _ | setacctcpu _ _ | regproducer _ _ _ _
  | regproducer2 _ _ _ _ | unregprod _ | setmem _ | setmemrate _
  | makeprod _ _ _ | regproxy _ _ | setparams _ | claimrewards _
  | rmvproducer _ | setinflation _ _ _ | newaccount _ _ | setabi _ _
  | privileged =>
      obtain rfl : ms = [.kept] := h
      simp at hm

end Cancellations

/-! ## Rows and their schedule -/

/-- The row of `k` is scheduled for a time when it is due. -/
structure ScheduledFor (slot : UInt32) (k : Name) (p : Refunding)
    (row : RefundRequest) : Prop where
  notStake : k ≠ stakeAccount
  symbol : row.cpuAmount.symbol = row.netAmount.symbol
  past : ∀ ctx : Ctx, slot ≤ ctx.slot →
    row.requestTime * 1000000 ≤ ctx.currentTimePoint
  trx : ∃ d, p.scheduled = some d ∧
    (row.requestTime + refundDelaySec) * 1000000 ≤ d.executeAfter

/-- If `k` has a row, it is scheduled. -/
def Scheduled (slot : UInt32) (k : Name) (p : Refunding) : Prop :=
  ∀ row, p.row = some row → ScheduledFor slot k p row

theorem Scheduled.mono {slot slot' : UInt32} {k : Name} {p : Refunding}
    (h : Scheduled slot k p) (hle : slot ≤ slot') : Scheduled slot' k p :=
  fun row hrow => { h row hrow with
    past := fun ctx hctx => (h row hrow).past ctx (UInt32.le_trans hle hctx) }

/-- Every step but a cancellation keeps a row and its schedule together. -/
theorem RefundStep.scheduled {ctx : Ctx} {k : Name} {p p' : Refunding}
    {m : RefundMove} (h : Scheduled ctx.slot k p) (hm : m ≠ .cancelled)
    (hstep : RefundStep ctx k p m p') : Scheduled ctx.slot k p' := by
  intro row hrow
  cases m with
  | kept =>
      obtain rfl : p' = p := hstep
      exact h row hrow
  | cancelled => exact absurd rfl hm
  | renewed unstaking =>
      obtain ⟨hk, row', rfl, hsym, htime⟩ := hstep
      cases hrow
      have hpast : ∀ ctx' : Ctx, ctx.slot ≤ ctx'.slot →
          row.requestTime * 1000000 ≤ ctx'.currentTimePoint := by
        intro ctx' hctx
        cases unstaking with
        | true =>
            have hnow : row.requestTime = ctx.secSinceEpoch := htime
            have hmono := Ctx.currentTimePoint_mono hctx
            unfold Ctx.secSinceEpoch at hnow
            omega
        | false =>
            obtain ⟨old, hold, hsame⟩ : ∃ old, p.row = some old ∧
              row.requestTime = old.requestTime := htime
            rw [hsame]
            exact (h old hold).past ctx' hctx
      have hnow := hpast ctx (UInt32.le_refl _)
      exact ⟨hk, hsym, hpast, _, rfl, by dsimp only; omega⟩
  | closed =>
      obtain rfl : p' = ⟨none, none⟩ := hstep
      cases hrow
  | paid =>
      obtain ⟨_, _, _, rfl⟩ := hstep
      cases hrow

/-- Where there is no row, only taking stake back brings one. -/
theorem RefundStep.row_eq_none {ctx : Ctx} {k : Name} {p p' : Refunding}
    {m : RefundMove} (h : p.row = none) (hm : m ≠ .renewed true)
    (hstep : RefundStep ctx k p m p') : p'.row = none := by
  cases m with
  | kept =>
      obtain rfl : p' = p := hstep
      exact h
  | cancelled =>
      obtain rfl : p' = { p with scheduled := none } := hstep
      exact h
  | renewed unstaking =>
      cases unstaking with
      | true => exact absurd rfl hm
      | false =>
          obtain ⟨_, _, _, _, old, hold, _⟩ := hstep
          rw [h] at hold
          cases hold
  | closed =>
      obtain rfl : p' = ⟨none, none⟩ := hstep
      rfl
  | paid =>
      obtain ⟨_, _, _, rfl⟩ := hstep
      rfl

section Steps

variable {k : Name} {p p' : Refunding} {ms : List RefundMove} {e : Event}

/-- A refund that is cancelled keeps its row. -/
theorem Event.RefundMoves.cancelled (hms : e.RefundMoves k ms)
    (hrun : Run (RefundStep e.ctx k) p ms p') (he : e.Cancels k) :
    p' = { p with scheduled := none } := by
  cases e with
  | token ctx a => exact he.elim
  | deferred slot isAccount owner => exact he.elim
  | system ctx a =>
      have hall : ∀ m ∈ ms, m = .cancelled :=
        fun m hm => (SysAction.RefundMoves.cancels hms hm).mpr he
      obtain ⟨m, rest, rfl⟩ : ∃ m rest, ms = m :: rest := by
        cases ms with
        | cons m rest => exact ⟨m, rest, rfl⟩
        | nil =>
            cases a <;>
              simp [Event.RefundMoves, SysAction.RefundMoves] at hms
      obtain rfl : m = .cancelled := hall m (by simp)
      obtain ⟨q, hfirst, hrest⟩ := hrun.uncons
      obtain rfl : q = { p with scheduled := none } := hfirst
      refine hrest.invariant (I := fun q => q = { p with scheduled := none })
        (fun m => m = .cancelled) ?_ (fun m hm => hall m (by simp [hm])) rfl
      rintro q m q' rfl rfl hstep
      exact hstep

/-- An event that neither cancels the refund of `k` nor is the refund on
schedule keeps a row and its schedule together. -/
theorem Event.RefundMoves.scheduled (hms : e.RefundMoves k ms)
    (hrun : Run (RefundStep e.ctx k) p ms p') {slot : UInt32}
    (hle : slot ≤ e.ctx.slot) (h : Scheduled slot k p)
    (hcancels : ¬ e.Cancels k)
    (hdeferred : ms ≠ [.cancelled] ∧ ms ≠ [.cancelled, .paid]) :
    Scheduled e.ctx.slot k p' := by
  refine hrun.invariant (fun m => m ≠ .cancelled)
    (fun _ _ _ hm hq hstep => hstep.scheduled hq hm) ?_ (h.mono hle)
  intro m hm
  cases e with
  | token ctx a =>
      obtain rfl : ms = [.kept] := hms
      rw [List.mem_singleton.mp hm]
      simp
  | system ctx a =>
      exact fun hc => hcancels ((SysAction.RefundMoves.cancels hms hm).mp hc)
  | deferred slot isAccount owner =>
      by_cases hk : k = owner
      · rcases (if_pos hk).mp hms with rfl | rfl
        · exact absurd rfl hdeferred.1
        · exact absurd rfl hdeferred.2
      · obtain rfl : ms = [.kept] := (if_neg hk).mp hms
        rw [List.mem_singleton.mp hm]
        simp

/-- Where there is no row, only taking stake back brings one. -/
theorem Event.RefundMoves.row_eq_none (hms : e.RefundMoves k ms)
    (hrun : Run (RefundStep e.ctx k) p ms p') (he : ¬ e.Unstakes k)
    (h : p.row = none) : p'.row = none := by
  refine hrun.invariant (I := fun q => q.row = none)
    (fun m => m ≠ .renewed true)
    (fun _ _ _ hm hq hstep => hstep.row_eq_none hq hm) ?_ h
  rintro m hm rfl
  cases e with
  | token ctx a =>
      obtain rfl : ms = [.kept] := hms
      simp at hm
  | system ctx a => exact he (SysAction.RefundMoves.unstakes hms hm)
  | deferred slot isAccount owner =>
      by_cases hk : k = owner
      · rcases (if_pos hk).mp hms with rfl | rfl <;> simp at hm
      · obtain rfl : ms = [.kept] := (if_neg hk).mp hms
        simp at hm

end Steps

/-! ## The payment on schedule -/

namespace System

/-- A refund that is due is sent. -/
theorem refund_eq {ctx : Ctx} {s : SysState} {owner : Name}
    {row : RefundRequest} (hauth : ctx.HasAuth owner)
    (hrow : s.refunds.find owner = some row)
    (hdue : (row.requestTime + refundDelaySec) * 1000000 ≤
      ctx.currentTimePoint)
    (hsym : row.cpuAmount.symbol = row.netAmount.symbol)
    (hrange : Asset.InRange
      (row.netAmount.amount + row.cpuAmount.amount)) :
    refund ctx s owner = .ok { s.send
        [⟨stakeAccount, activePermission⟩, ⟨owner, activePermission⟩]
        (.transfer stakeAccount owner
          ⟨row.netAmount.amount + row.cpuAmount.amount,
            row.netAmount.symbol⟩ "unstake") with
      refunds := s.refunds.erase owner } := by
  have hkey : row.owner = owner := KeyedTable.key_of_find hrow
  simp only [refund, bind_eq_ok, Ctx.requireAuth_eq_ok, orStop_eq_ok,
    check_eq_ok, Asset.add_eq_ok, pure_eq_ok, exists_const]
  refine ⟨hauth, row, hrow, hdue, _, ⟨hsym, hrange, rfl⟩, ?_⟩
  rw [hkey]
  rfl

end System

namespace Chain

variable {env : Env} {c c' : Chain} {e : Event}

/-- A chain in which every pending refund is scheduled and can be paid. -/
structure Payable (c : Chain) : Prop extends Solvent c where
  inr : c.InrCore
  idle : c.sys.getProdActivity stakeAccount = false
  creator : c.sys.refunds.find accountCreator = none
  scheduled : ∀ k, Scheduled c.slot k (c.sys.refunding k)

/-- What the stake account owes an account it has. -/
theorem Solvent.refunded_le (hc : c.Solvent) (o : Name) :
    weight (c.sys.refunded o) ≤ c.liquid stakeAccount := by
  have howed : ∀ a, 0 ≤ c.sys.owed a := by
    intro a
    rw [SysState.owed_eq]
    exact add_nonneg (hc.books.stakes.staker_nonneg a)
      (weight_nonneg (hc.books.stakes.refunded_nonneg a))
  refine le_trans ?_ ((le_total howed o).trans hc.covered)
  rw [SysState.owed_eq, Pi.add_apply]
  have hstaker := hc.books.stakes.staker_nonneg o
  omega

/-- A pending refund is not empty, and the stake account has it. -/
theorem Solvent.refund_covered (hc : c.Solvent) {o : Name}
    {row : RefundRequest} (hrow : c.sys.refunds.find o = some row) :
    0 < row.netAmount.amount + row.cpuAmount.amount ∧
    row.netAmount.amount + row.cpuAmount.amount ≤
      c.token.balances row.netAmount.symbol.code stakeAccount := by
  obtain ⟨⟨hnet, hcpu⟩, hempty, hcore⟩ := hc.books.stakes.refunds o row hrow
  constructor
  · have hnet' : 0 ≤ row.netAmount.amount := hnet
    have hcpu' : 0 ≤ row.cpuAmount.amount := hcpu
    by_contra hzero
    have hnone : row.netAmount.amount = 0 ∧ row.cpuAmount.amount = 0 := by
      omega
    simp [RefundRequest.isEmpty, hnone.1, hnone.2] at hempty
  · have hkept := hc.refunded_le o
    rw [show c.sys.refunded o = row.weights from view_of_find hrow,
      liquid_of_core hcore] at hkept
    exact hkept

/-- The payment of a pending refund succeeds if its owner exists. -/
theorem Payable.succeeds_transfer (hc : c.Payable) {ctx : Ctx} {o : Name}
    {row : RefundRequest} (hrow : c.sys.refunds.find o = some row)
    (hauth : ctx.HasAuth stakeAccount) (hexists : ctx.isAccount o = true)
    {act : Name → Bool} (hact : act stakeAccount = false) :
    Succeeds (Token.transfer ctx act c.token stakeAccount o
      ⟨row.netAmount.amount + row.cpuAmount.amount, row.netAmount.symbol⟩
      "unstake") := by
  have hstake := (hc.scheduled o row hrow).notStake
  obtain ⟨hpos, hle⟩ := hc.refund_covered hrow
  obtain ⟨hcode, st, hst, hsymbol⟩ :=
    hc.inr _ (hc.books.stakes.refunds o row hrow).2.2
  have howner : o ≠ accountCreator := by
    rintro rfl
    exact absurd (hc.creator.symm.trans hrow) (by simp)
  have hvalid : row.netAmount.symbol.isValid = true := by
    unfold Symbol.isValid
    rw [hcode]
    decide
  exact Token.succeeds_transfer hc.books.toSettled.token hstake.symm hauth
    hexists howner hst hsymbol.symm hvalid hpos hle
    (hcode ▸ Token.isSome_of_covered hpos hle)
    (fun h => absurd (h.symm.trans hact) (by decide)) (by decide)

/-- A pending refund that is due is paid when it is called for. -/
theorem Payable.succeeds_refund (hc : c.Payable) {ctx : Ctx} {o : Name}
    {row : RefundRequest} (hrow : c.sys.refunds.find o = some row)
    (hauth : ctx.HasAuth o) (hexists : ctx.isAccount o = true)
    (hdue : (row.requestTime + refundDelaySec) * 1000000 ≤
      ctx.currentTimePoint) :
    Succeeds (runSystem env ctx (c.dropDeferred o) (.refund o)) := by
  obtain ⟨hpos, hle⟩ := hc.refund_covered hrow
  have hmax := hc.books.toSettled.token.le_max row.netAmount.symbol.code
    stakeAccount
  have hrange : Asset.InRange
      (row.netAmount.amount + row.cpuAmount.amount) := by
    unfold Asset.InRange Asset.maxAmount at *
    omega
  have hrefund := System.refund_eq (s := (c.dropDeferred o).sys) hauth hrow
    hdue (hc.scheduled o row hrow).symbol hrange
  obtain ⟨t', ht'⟩ : Succeeds (Token.transfer { ctx with auths :=
      [⟨stakeAccount, activePermission⟩, ⟨o, activePermission⟩] }
      c.sys.getProdActivity c.token stakeAccount o
      ⟨row.netAmount.amount + row.cpuAmount.amount, row.netAmount.symbol⟩
      "unstake") := by
    refine hc.succeeds_transfer hrow ⟨_, List.mem_cons_self, rfl⟩ ?_ hc.idle
    exact hexists
  refine Succeeds.bind ⟨_, hrefund⟩ (fun s hs => Succeeds.bind ?_
    (fun _ _ => succeeds_pure))
  cases hrefund.symm.trans hs
  have hout : c.sys.outbox = [] := hc.books.toSettled.outbox
  simp only [SysState.send, dropDeferred, hout, List.nil_append,
    List.foldlM_cons, List.foldlM_nil]
  exact Succeeds.bind ⟨t', ht'⟩ (fun _ _ => succeeds_pure)

/-- **A scheduled refund that runs is paid.** -/
theorem Payable.pays (hc : c.Payable) {slot : UInt32}
    {isAccount : Name → Bool} {o : Name}
    (h : Step env c (.deferred slot isAccount o) c')
    (hexists : isAccount o = true) : c'.sys.refunds.find o = none := by
  cases hrow : c.sys.refunds.find o with
  | none =>
      obtain ⟨ms, hms, hrun⟩ := step_refunding h o
      exact hms.row_eq_none hrun (fun he => he.elim) hrow
  | some row =>
      obtain ⟨d, hd, hafter⟩ := (hc.scheduled o row hrow).trx
      simp only [Step, exec, runEvent, bind_eq_ok, require_eq_ok,
        orStop_eq_ok, pure_eq_ok, exists_const] at h
      obtain ⟨_, c₁, ⟨d', hd', hdue, hrun⟩, rfl⟩ := h
      obtain rfl : d' = d := Option.some.inj (hd'.symm.trans hd)
      have hauth : (Event.deferred slot isAccount o).ctx.HasAuth o :=
        ⟨_, List.mem_cons_self, rfl⟩
      obtain ⟨c₂, hc₂⟩ : Succeeds (runSystem env _ (c.dropDeferred o) _) :=
        hc.succeeds_refund hrow hauth hexists (hafter.trans hdue)
      rw [hc₂] at hrun
      obtain rfl : c₂ = c₁ := Except.ok.inj hrun
      obtain ⟨s, happly, _, hsys, _⟩ := runSystem_ok hc₂
      obtain ⟨_, _, _, _, _, rfl⟩ := System.refund_ok happly
      show c₂.sys.refunds.find o = none
      rw [hsys]
      exact (KeyedTable.find_erase _ _ _).trans (if_pos rfl)

/-- What a step may not do if pending refunds are to stay scheduled: stake for
somebody else while the owner of the stake has a refund, act for the stake
account, take back stake of the creator of accounts, who may not take tokens,
or open the market for another token than `INR`.  A scheduled refund runs for
an account that exists. -/
structure KeepsSchedule (c : Chain) (e : Event) : Prop where
  cancels : ∀ o, e.Cancels o → c.sys.refunds.find o = none
  stake : ¬ e.TopLevelBy stakeAccount
  creator : ¬ e.Unstakes accountCreator
  core : ∀ ctx version core, e = .system ctx (.init version core) →
    core.code = inrCode
  owner : ∀ slot isAccount o, e = .deferred slot isAccount o →
    isAccount o = true

/-- The refund of one account stays scheduled. -/
private theorem Payable.step_scheduled (hc : c.Payable) (h : Step env c e c')
    (he : c.KeepsSchedule e) (k : Name) :
    Scheduled c'.slot k (c'.sys.refunding k) := by
  obtain ⟨hle, hslot, _⟩ := step_cases h
  obtain ⟨ms, hms, hrun⟩ := step_refunding h k
  rw [hslot]
  by_cases hcancels : e.Cancels k
  · rw [hms.cancelled hrun hcancels]
    intro row hrow
    exact absurd ((he.cancels k hcancels).symm.trans hrow) (by simp)
  by_cases hdue : ∃ slot isAccount, e = .deferred slot isAccount k
  · obtain ⟨slot, isAccount, rfl⟩ := hdue
    intro row hrow
    have hgone := hc.pays h (he.owner slot isAccount k rfl)
    exact absurd (hgone.symm.trans hrow) (by simp)
  · refine hms.scheduled hrun hle (hc.scheduled k) hcancels ?_
    cases e with
    | token ctx a =>
        obtain rfl : ms = [.kept] := hms
        simp
    | deferred slot isAccount owner =>
        have hk : k ≠ owner := fun hk => hdue ⟨slot, isAccount, by rw [hk]⟩
        obtain rfl : ms = [.kept] := (if_neg hk).mp hms
        simp
    | system ctx a =>
        have hnot : .cancelled ∉ ms := fun hm =>
          hcancels ((SysAction.RefundMoves.cancels hms hm).mp rfl)
        constructor
        · rintro rfl
          simp at hnot
        · rintro rfl
          simp at hnot

theorem Payable.step (hc : c.Payable) (h : Step env c e c')
    (he : c.KeepsSchedule e) : c'.Payable where
  toSolvent := hc.toSolvent.step he.stake h
  inr := hc.inr.step hc.books h he.core
  idle := (step_activity h he.stake).trans hc.idle
  creator := by
    obtain ⟨ms, hms, hrun⟩ := step_refunding h accountCreator
    exact hms.row_eq_none hrun he.creator hc.creator
  scheduled k := hc.step_scheduled h he k

theorem payable_genesis (env : Env) : (genesis env).Payable where
  toSolvent := solvent_genesis env
  inr core hcore := by
    rw [Market.coreSymbol_ok] at hcore
    cases hcore
  idle := rfl
  creator := rfl
  scheduled k row hrow := by cases hrow

end Chain

/-- **Pending refunds are scheduled**, in every run whose steps stake for
nobody else while the owner has a refund.  Every row has a transaction on the
list that pays it once it is due, and that transaction succeeds when it runs;
a stake for somebody else takes it off the list and leaves the row. -/
theorem refunds_scheduled {env : Env} {es : List Event} {c : Chain}
    (hrun : RunWhile (Chain.Step env) (fun _ c e => c.KeepsSchedule e)
      (.genesis env) es c) :
    (∀ o row, c.sys.refunds.find o = some row →
      ∃ d, c.sys.deferred.find o = some d ∧
        (row.requestTime + refundDelaySec) * 1000000 ≤ d.executeAfter) ∧
    (∀ slot isAccount o c',
      Chain.Step env c (.deferred slot isAccount o) c' →
      isAccount o = true → c'.sys.refunds.find o = none) ∧
    ∀ e c' o row, Chain.Step env c e c' → e.Cancels o →
      c.sys.refunds.find o = some row →
      c'.sys.refunds.find o = some row ∧ c'.sys.deferred.find o = none := by
  have hc : c.Payable := hrun.history (H := fun _ c => c.Payable)
    (Chain.payable_genesis env) (fun _ _ _ _ hd hcond hstep =>
      hd.step hstep hcond)
  refine ⟨fun o row hrow => (hc.scheduled o row hrow).trx,
    fun slot isAccount o c' hstep hexists => hc.pays hstep hexists, ?_⟩
  intro e c' o row hstep he hrow
  obtain ⟨ms, hms, hmoves⟩ := Chain.step_refunding hstep o
  have hcancelled := hms.cancelled hmoves he
  exact ⟨(congrArg Refunding.row hcancelled).trans hrow,
    congrArg Refunding.scheduled hcancelled⟩

/-- An event of one signer that stakes at most for the signer meets the
condition in every state. -/
private theorem keepsSchedule_sample : ∀ e ∈ openingEvents ++
    [.system (.signedBy systemAccount 1) (.init 0 inrSymbol)] ++
      refundingEvents, ∀ c : Chain, c.KeepsSchedule e := by
  have hside : ∀ o, ¬ Sidesteps alice alice false o := fun o h =>
    h.2.2.elim (fun hf => by cases hf) (fun hne => hne rfl)
  simp only [openingEvents, refundingEvents, List.cons_append,
    List.nil_append, List.forall_mem_cons, List.not_mem_nil,
    IsEmpty.forall_iff, implies_true, and_true]
  refine ⟨?_, ?_, ?_, ?_, ?_, ?_, ?_⟩
  all_goals
    intro c
    refine ⟨?_, ?_, ?_, ?_, ?_⟩
    · intro o ho
      first | exact ho.elim | exact (hside o ho).elim
    · simp only [Event.TopLevelBy]
      decide
    · simp only [Event.Unstakes]
      decide
    · intro ctx version core heq
      first | (cases heq; decide) | cases heq
    · intro slot isAccount o heq
      cases heq

/-- In the sample run the pending refund of alice is scheduled. -/
theorem refunds_scheduled_sample : ∃ (c : Chain) (row : RefundRequest),
    c.sys.refunds.find alice = some row ∧
    ∃ d, c.sys.deferred.find alice = some d ∧
      (row.requestTime + refundDelaySec) * 1000000 ≤ d.executeAfter := by
  have hsample : SampleRun refundingEvents
      (fun _ c => (c.sys.refunds.find alice).isSome = true) := by
    decide +kernel
  obtain ⟨c₀, c₁, c, hbefore, hinit, hafter, hsome⟩ := hsample.runs
  obtain ⟨row, hrow⟩ := Option.isSome_iff_exists.mp hsome
  have hrun := ((hbefore.append (.single hinit)).append hafter).while
    (P := fun _ c e => c.KeepsSchedule e)
    (fun _ c e he => keepsSchedule_sample e he c)
  exact ⟨c, row, hrow, (refunds_scheduled hrun).1 alice row hrow⟩

/-- Bob gives alice some stake while her refund is pending. -/
def giftWhilePending : Event :=
  .system (.signedBy bob 6)
    (.delegatebw bob alice ⟨10, inrSymbol⟩ ⟨10, inrSymbol⟩ true)

/-- The gift takes the pending refund of alice off the list. -/
theorem refund_unscheduled : ∃ c : Chain, Chain.Reachable sampleEnv c ∧
    ∃ row, c.sys.refunds.find alice = some row ∧
      c.sys.deferred.find alice = none := by
  have hsample : SampleRun (refundingEvents ++ [giftWhilePending])
      (fun _ c => (c.sys.refunds.find alice).isSome = true ∧
        c.sys.deferred.find alice = none) := by
    decide +kernel
  obtain ⟨_, c, hreach, hsome, hnone⟩ := hsample.reachable
  obtain ⟨row, hrow⟩ := Option.isSome_iff_exists.mp hsome
  exact ⟨c, hreach, row, hrow, hnone⟩

end Inery
