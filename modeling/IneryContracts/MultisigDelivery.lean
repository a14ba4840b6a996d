import IneryContracts.DeferredTransactions
import IneryContracts.MultisigPairing

/-!
# From a proposal to its delivery

An execution of `inery.msig` hands the transaction of a proposal to the host,
which keeps it in flight until it delivers or drops it.  This file follows a
transaction all the way: what the host has was proposed, approved and executed,
once for each time it was proposed, and while it is in flight its proposer can
execute no other one under its name.
-/

namespace Inery

open GuardedStep LabelledRun MessageOutbox

/-- What an execution passes to `send_deferred`. -/
def Execution.deferred (x : Execution) : DeferredTransaction :=
  ⟨x.senderId, x.payer, x.packedTransaction⟩

namespace MultisigState

/-- One call, with the message that it hands to the host. -/
def Sends (host : MultisigHost) (out : DeferredHost) (s : MultisigState)
    (call : MultisigCall) (s' : MultisigState) :
    Option (Message ℕ DeferredTransaction) → Prop
  | none => s.perform host call = .ok (s', none)
  | some m => ∃ x, s.perform host call = .ok (s', some x) ∧
      out.sendDeferred call.ctx.toCtx x.deferred = .ok m

/-- The contract with empty tables, and nothing in flight. -/
def opening : World MultisigState ℕ DeferredTransaction := ⟨genesis, .empty⟩

end MultisigState

/-! ## One execution -/

variable {host : MultisigHost} {out : DeferredHost} {s s' : MultisigState}
  {call : MultisigCall} {m : Message ℕ DeferredTransaction}
  {proposer name : Name}

theorem MultisigState.Sends.step {o : Option (Message ℕ DeferredTransaction)}
    (h : s.Sends host out call s' o) : MultisigStep host s call s' := by
  cases o with
  | none => exact ⟨none, h⟩
  | some m =>
      obtain ⟨x, hx, _⟩ := h
      exact ⟨some x, hx⟩

namespace Multisig

theorem exec_sent {ctx : MultisigCtx} {executer : Name} {x : Execution}
    (h : exec host ctx s proposer name executer = .ok (s', x)) :
    ctx.HasAuth executer ∧ x.payer = executer ∧
      x.senderId = senderId proposer name.value.toNat ∧
      ctx.checkTransactionAuthorization x.packedTransaction x.provided > 0 := by
  simp only [exec, bind_eq_ok, Ctx.requireAuth_eq_ok, check_eq_ok, pure_eq_ok,
    exists_const, Prod.mk.injEq] at h
  obtain ⟨hauth, _, _, _, _, _, _, _, hauthorized, rfl, rfl⟩ := h
  exact ⟨hauth, rfl, rfl, hauthorized⟩

/-- Only an execution hands a transaction over, and it always does. -/
theorem apply_executes {ctx : MultisigCtx} {action : MultisigAction}
    {o : Option Execution} (h : apply host ctx s action = .ok (s', o)) :
    (∃ p n executer x, action = .exec p n executer ∧ o = some x ∧
      exec host ctx s p n executer = .ok (s', x)) ∨
    (∀ p n executer, action ≠ .exec p n executer) ∧ o = none := by
  cases action with
  | exec p n executer =>
      simp only [apply, bind_eq_ok, pure_eq_ok, Prod.mk.injEq] at h
      obtain ⟨⟨s₁, x⟩, hexec, rfl, rfl⟩ := h
      exact .inl ⟨p, n, executer, x, rfl, rfl, hexec⟩
  | _ =>
      simp only [apply, bind_eq_ok, pure_eq_ok, Prod.mk.injEq] at h
      obtain ⟨_, _, _, rfl⟩ := h
      exact .inr ⟨by simp, rfl⟩

end Multisig

/-- The call that sends a message executes the proposal in its id. -/
theorem MultisigState.Sends.executes
    (h : s.Sends host out call s' (some m)) :
    ∃ p n executer x s₁, call.action = .exec p n executer ∧
      Multisig.exec host call.ctx s p n executer = .ok (s₁, x) ∧
      m.body = x.deferred ∧ m.key = senderId p n.value.toNat ∧
      out.schedule call.ctx.currentTimePoint x.packedTransaction =
        .ok m.due := by
  obtain ⟨x, hperform, hsend⟩ := h
  simp only [perform, bind_eq_ok, require_eq_ok, pure_eq_ok, Prod.mk.injEq,
    exists_const] at hperform
  obtain ⟨_, ⟨s₁, o⟩, happly, _, ho⟩ := hperform
  obtain ⟨hdue, hkey, hbody⟩ := DeferredHost.sendDeferred_eq_ok.mp hsend
  obtain ⟨p, n, executer, y, haction, hy, hexec⟩ | ⟨_, hnone⟩ :=
    Multisig.apply_executes happly
  · obtain rfl : y = x := Option.some.inj (hy.symm.trans ho)
    obtain ⟨_, _, hid, _⟩ := Multisig.exec_sent hexec
    exact ⟨p, n, executer, y, s₁, haction, hexec, hbody, hkey.trans hid, hdue⟩
  · rw [hnone] at ho
    cases ho

/-- A call that sends nothing executes nothing. -/
theorem MultisigState.Sends.quiet (h : s.Sends host out call s' none) :
    call.executes proposer name = false := by
  have hperform : s.perform host call = .ok (s', none) := h
  simp only [perform, bind_eq_ok, require_eq_ok, pure_eq_ok, Prod.mk.injEq,
    exists_const] at hperform
  obtain ⟨_, ⟨s₁, o⟩, happly, _, ho⟩ := hperform
  obtain ⟨_, _, _, x, _, hx, _⟩ | ⟨hne, _⟩ := Multisig.apply_executes happly
  · rw [hx] at ho
    cases ho
  · unfold MultisigCall.executes
    split
    · next haction => exact absurd haction (hne _ _ _)
    · rfl

/-! ## Runs -/

/-- What a message that is in flight, or has left, owes to the calls before
it: it carries the transaction of the last proposal under its name, and the
levels for which the host has found that enough were asked for and approved
since, by those who signed for them and have not invalidated it. -/
structure Endorsed (host : MultisigHost) (calls : List MultisigCall)
    (call : MultisigCall) (m : Message ℕ DeferredTransaction)
    (proposer name : Name) : Prop where
  key : m.key = senderId proposer name.value.toNat
  action : ∃ executer, call.action = .exec proposer name executer ∧
    call.ctx.HasAuth executer ∧ m.body.payer = executer
  proposed : ∃ I : Incarnation calls proposer name,
    m.body.packedTransaction = I.trx ∧ ∃ provided,
      call.ctx.checkTransactionAuthorization I.trx provided > 0 ∧
      ∀ level ∈ provided, level ∈ I.requested ∧
        ∃ c ∈ I.after, ∃ hash,
          c.action = .approve proposer name level hash ∧
          level ∈ c.ctx.auths ∧
          (∀ h, hash = some h → host.sha256 I.trx = h) ∧
          ∀ d ∈ calls, d.action = .invalidate level.actor → d.time < c.time

variable {calls : List MultisigCall}

/-- A message after the calls of a run. -/
theorem MultisigState.Sends.endorsed
    (hrun : Run (MultisigStep host) .genesis calls s)
    (h : s.Sends host out call s' (some m)) :
    ∃ p n, Endorsed host calls call m p n := by
  obtain ⟨p, n, executer, x, s₁, haction, hexec, hbody, hkey, _⟩ := h.executes
  have hhistory := History.run hrun
  obtain ⟨hauth, hpayer, _, hauthorized⟩ := Multisig.exec_sent hexec
  obtain ⟨⟨prop, apps, hprop, happs, htrx, hprovided⟩, _⟩ :=
    Multisig.exec_ok hexec hhistory.noOld
  have hlive := hhistory.live p n
  rw [hprop, happs] at hlive
  obtain ⟨hnone, _⟩ | ⟨_, _, hp, ha, I, htied⟩ := hlive
  · cases hnone
  cases hp
  cases ha
  have hsent : x.packedTransaction = I.trx := htrx.trans htied.trx
  refine ⟨p, n, hkey, ⟨executer, haction, hauth, hbody ▸ hpayer⟩, I,
    hbody ▸ hsent, x.provided, hsent ▸ hauthorized, fun level hlevel => ?_⟩
  rw [hprovided] at hlevel
  obtain ⟨q, hq, rfl⟩ := List.mem_map.mp hlevel
  obtain ⟨hmem, hstands⟩ := List.mem_filter.mp hq
  obtain ⟨hrequested, c, hc, hgrants⟩ := htied.provided q hmem
  obtain ⟨hash, hcall, hhash⟩ := hgrants.approves
  refine ⟨hrequested, c, hc, hash, hcall, hgrants.authorized, hhash, ?_⟩
  intro d hd hinv
  rw [← hgrants.time]
  exact hhistory.time_lt hstands hd hinv

section Runs

variable {ls : List (Label MultisigCall ℕ DeferredTransaction)}
  {w : World MultisigState ℕ DeferredTransaction}

/-- The calls of a run, without what the host does. -/
theorem multisig_acts
    (hrun : Run (Step (MultisigState.Sends host out))
      MultisigState.opening ls w) :
    Run (MultisigStep host) .genesis (acts ls) w.sender :=
  (run_acts hrun).mono (fun _ => True)
    (fun _ _ _ _ ⟨_, hsend⟩ => hsend.step) (fun _ _ => trivial)

/-- The messages under an id are the executions of the proposal in it. -/
theorem countP_sends
    (hrun : Run (Step (MultisigState.Sends host out))
      MultisigState.opening ls w)
    (proposer name : Name) :
    (sends ls).countP (fun m => m.key = senderId proposer name.value.toNat) =
      (acts ls).countP (·.executes proposer name) := by
  induction hrun with
  | nil => rfl
  | @snoc u v ls l init last ih =>
      rw [sends_snoc, acts, List.filterMap_append, List.countP_append,
        List.countP_append, ih]
      refine congrArg _ ?_
      cases l with
      | quiet call =>
          have hquiet : call.executes proposer name = false := last.1.quiet
          simp [Label.sends, Label.act, hquiet]
      | sent call m =>
          obtain ⟨p, n, executer, x, s₁, haction, _, _, hkey, _⟩ :=
            last.1.executes
          have hid : (m.key = senderId proposer name.value.toNat) ↔
              p = proposer ∧ n = name := by
            rw [hkey, senderId_inj n.value.toNat_lt name.value.toNat_lt,
              UInt64.toNat_inj]
            cases n
            cases name
            simp
          simp [Label.sends, Label.act, MultisigCall.executes, haction, hid]
      | delivered now m => rfl
      | dropped m => rfl

end Runs

/-- **A transaction that the host has been given was approved, and comes once
for each time it was proposed.**  In every run of the calls and of the host,
the transactions sent are those that have left and those in flight; each is the
one last proposed under its name, with approvals that stand at the levels the
host has accepted, and is executed by an account that has signed for it; under
no name are there more of them than times it was proposed; and of two under one
name the first has left before the second is executed. -/
theorem multisig_delivered {host : MultisigHost} {out : DeferredHost}
    {ls : List (Label MultisigCall ℕ DeferredTransaction)}
    {w : World MultisigState ℕ DeferredTransaction}
    (hrun : Run (Step (MultisigState.Sends host out))
      MultisigState.opening ls w) :
    (sends ls).Perm (takes ls ++ w.pending.rows) ∧
    (∀ m ∈ sends ls, ∃ as call bs p n, ls = as ++ .sent call m :: bs ∧
      Endorsed host (acts as) call m p n) ∧
    (∀ proposer name : Name,
      (takes ls).countP
          (fun m => m.key = senderId proposer name.value.toNat) +
        w.pending.rows.countP
          (fun m => m.key = senderId proposer name.value.toNat) ≤
      (acts ls).countP (·.proposes proposer name)) ∧
    ∀ as bs cs call call' m m',
      ls = as ++ .sent call m :: (bs ++ .sent call' m' :: cs) →
      m.key = m'.key → m ∈ takes bs := by
  refine ⟨run_books hrun, fun m hm => ?_, fun proposer name => ?_, ?_⟩
  · obtain ⟨as, call, bs, rfl⟩ := mem_sends hm
    obtain ⟨u, hbefore, hrest⟩ := hrun.split
    obtain ⟨v, hsent, _⟩ := hrest.uncons
    obtain ⟨p, n, hendorsed⟩ := hsent.1.endorsed (multisig_acts hbefore)
    exact ⟨as, call, bs, p, n, rfl, hendorsed⟩
  · rw [countP_takes_le hrun rfl, countP_sends hrun]
    have hpaired : (acts ls).countP (·.executes proposer name) +
        w.sender.pending proposer name ≤
        (acts ls).countP (·.proposes proposer name) :=
      (Paired.run (multisig_acts hrun)).executed
    exact (Nat.le_add_right _ _).trans hpaired
  · rintro as bs cs call call' m m' rfl hkey
    exact left_between hrun hkey

/-- The execution of the proposal that the sample calls approve. -/
def executingCall : MultisigCall :=
  sampleCall tokenAccount 7 [systemLevel]
    (.exec tokenAccount tokenAccount tokenAccount)

/-- After the sample calls, which send nothing, it hands the transaction over,
and a host that takes everything keeps it. -/
theorem executingCall_sent (out : DeferredHost)
    (hout : ∀ now trx, out.schedule now trx = .ok now) :
    ∃ (s s' : MultisigState) (m : Message ℕ DeferredTransaction),
    Run (Step (MultisigState.Sends sampleHost out)) MultisigState.opening
      (approvedCalls.map .quiet) ⟨s, .empty⟩ ∧
    Step (MultisigState.Sends sampleHost out) ⟨s, .empty⟩
      (.sent executingCall m) ⟨s', KeyedTable.empty.put m⟩ ∧
    m.body.packedTransaction = [2] := by
  have hsample : Finishes (approvedCalls.foldlM
      (fun (s : MultisigState) c => do
        let r ← s.perform sampleHost c
        require (r.2 = none) Abort.notDue
        return r.1) MultisigState.genesis)
      (fun s => Finishes (s.perform sampleHost executingCall)
        (fun r => r.2.map (·.packedTransaction) = some [2])) := by
    decide +kernel
  obtain ⟨s, hcalls, ⟨s', y⟩, hexec, hy⟩ := hsample
  obtain ⟨x, rfl, hx⟩ := Option.map_eq_some_iff.mp hy
  have hbefore : Run (fun (s : MultisigState) c t =>
      s.Sends sampleHost out c t none) .genesis approvedCalls s := by
    refine (Run.of_foldlM hcalls).mono (fun _ => True) ?_ (fun _ _ => trivial)
    intro _ _ _ _ hstep
    simp only [bind_eq_ok, require_eq_ok, pure_eq_ok, exists_const] at hstep
    obtain ⟨⟨t, o⟩, hperform, rfl, rfl⟩ := hstep
    exact hperform
  refine ⟨s, s', ⟨x.senderId, executingCall.ctx.currentTimePoint, x.deferred⟩,
    run_quiet hbefore .empty, ⟨⟨x, hexec, ?_⟩, rfl, rfl⟩, hx⟩
  exact DeferredHost.sendDeferred_eq_ok.mpr ⟨hout _ _, rfl, rfl⟩

/-- The approved transaction is executed and delivered. -/
theorem multisig_delivered_sample :
    ∃ (ls : List (Label MultisigCall ℕ DeferredTransaction))
      (m : Message ℕ DeferredTransaction),
    m.body.packedTransaction = [2] ∧ m ∈ takes ls ∧
    (takes ls).countP (fun m =>
      m.key = senderId tokenAccount tokenAccount.value.toNat) ≤
      (acts ls).countP (·.proposes tokenAccount tokenAccount) := by
  obtain ⟨s, s', m, hbefore, hsent, htrx⟩ :=
    executingCall_sent ⟨fun now _ => .ok now⟩ (fun _ _ => rfl)
  have hdelivered : Step (MultisigState.Sends sampleHost
      ⟨fun now _ => .ok now⟩) ⟨s', KeyedTable.empty.put m⟩
      (.delivered m.due m) ⟨s', (KeyedTable.empty.put m).erase m.key⟩ :=
    ⟨by simp [KeyedTable.find_put], le_refl _, rfl⟩
  have hrun := (hbefore.snoc hsent).snoc hdelivered
  obtain ⟨_, _, hcount, _⟩ := multisig_delivered hrun
  refine ⟨_, m, htrx, ?_,
    (Nat.le_add_right _ _).trans (hcount tokenAccount tokenAccount)⟩
  rw [takes_snoc]
  exact List.mem_append_right _ (List.mem_singleton.mpr rfl)

end Inery
