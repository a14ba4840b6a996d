import IneryContracts.LabelledRun
import IneryContracts.SystemContract

/-!
# The two contracts together

A state of the chain is the state of both contracts at the time of the last
block.  An action of the system contract runs first; the inline actions it has
sent then run in the token contract under the permissions they were sent with,
and what they ask about producers is answered by the new tables.  Scheduled
refunds run under the permission of their owner once they are due, and are
gone afterwards whether they succeed or not.
-/

namespace Inery

open GuardedStep LedgerVector LabelledRun

/-- The state of both contracts and the slot of the last block. -/
structure Chain where
  token : TokenState
  sys : SysState
  slot : UInt32

/-- What can happen: a top-level action of either contract, or a scheduled
refund. -/
inductive Event
  | token (ctx : Ctx) (a : TokenAction)
  | system (ctx : Ctx) (a : SysAction)
  | deferred (slot : UInt32) (isAccount : Name → Bool) (owner : Name)

namespace Event

/-- Where an event runs. -/
def ctx : Event → Ctx
  | token ctx _ => ctx
  | system ctx _ => ctx
  | deferred slot isAccount owner =>
      ⟨[⟨owner, activePermission⟩], slot, isAccount⟩

/-- The account authorises the event; a scheduled refund is authorised by its
owner. -/
def AuthorizedBy (e : Event) (a : Name) : Prop := e.ctx.HasAuth a

end Event

namespace Chain

/-- Both contracts before their first action. -/
def genesis (env : Env) : Chain := ⟨.genesis, .genesis env, 0⟩

/-- Run one inline action after the system contract has reached `s`. -/
def runInline (ctx : Ctx) (s : SysState) (t : TokenState)
    (i : InlineAction) : Except Abort TokenState :=
  Token.apply { ctx with auths := i.auths } s.getProdActivity t i.action

/-- Run an action of the system contract together with its inline actions. -/
def runSystem (env : Env) (ctx : Ctx) (c : Chain) (a : SysAction) :
    Except Abort Chain := do
  let s ← System.apply env ctx c.token c.sys a
  let token ← s.outbox.foldlM (runInline ctx s) c.token
  return { c with token, sys := { s with outbox := [] } }

/-- The host takes a scheduled refund off its list. -/
def dropDeferred (c : Chain) (owner : Name) : Chain :=
  { c with sys := { c.sys with deferred := c.sys.deferred.erase owner } }

/-- Run one event at the current time. -/
def runEvent (env : Env) (c : Chain) : Event → Except Abort Chain
  | .token ctx a => do
      let token ← Token.apply ctx c.sys.getProdActivity c.token a
      return { c with token }
  | .system ctx a => runSystem env ctx c a
  | .deferred slot isAccount owner => do
      let ctx := (Event.deferred slot isAccount owner).ctx
      let d ← orStop (c.sys.deferred.find owner) .notDue
      require (d.executeAfter ≤ ctx.currentTimePoint) .notDue
      match runSystem env ctx (c.dropDeferred owner) (.refund owner) with
      | .ok c' => return c'
      | .error _ => return c.dropDeferred owner

/-- Run one event; time does not run backwards. -/
def exec (env : Env) (c : Chain) (e : Event) : Except Abort Chain := do
  require (c.slot ≤ e.ctx.slot) .notDue
  let c ← runEvent env c e
  return { c with slot := e.ctx.slot }

/-- An event that succeeds. -/
def Step (env : Env) (c : Chain) (e : Event) (c' : Chain) : Prop :=
  exec env c e = .ok c'

/-- The states that a run of events leads to, started from empty tables. -/
def Reachable (env : Env) (c : Chain) : Prop :=
  ∃ es, Run (Step env) (genesis env) es c

/-! ## One step, taken apart -/

theorem runSystem_ok {env : Env} {ctx : Ctx} {c c' : Chain} {a : SysAction}
    (h : runSystem env ctx c a = .ok c') :
    ∃ s, System.apply env ctx c.token c.sys a = .ok s ∧
      s.outbox.foldlM (runInline ctx s) c.token = .ok c'.token ∧
      c'.sys = { s with outbox := [] } ∧ c'.slot = c.slot := by
  simp only [runSystem, bind_eq_ok, pure_eq_ok] at h
  obtain ⟨s, hs, token, htoken, rfl⟩ := h
  exact ⟨s, hs, htoken, rfl, rfl⟩

/-- The ways a step can go: a token action, a system action with its inline
actions, a refund on schedule, or a scheduled refund that fails. -/
theorem step_cases {env : Env} {c c' : Chain} {e : Event}
    (h : Step env c e c') :
    c.slot ≤ e.ctx.slot ∧ c'.slot = e.ctx.slot ∧
    ((∃ ctx a, e = .token ctx a ∧ c'.sys = c.sys ∧
        Token.apply ctx c.sys.getProdActivity c.token a = .ok c'.token) ∨
      (∃ ctx a s, e = .system ctx a ∧
        System.apply env ctx c.token c.sys a = .ok s ∧
        s.outbox.foldlM (runInline ctx s) c.token = .ok c'.token ∧
        c'.sys = { s with outbox := [] }) ∨
      ∃ slot isAccount owner, e = .deferred slot isAccount owner ∧
        ((∃ s, System.apply env e.ctx c.token (c.dropDeferred owner).sys
            (.refund owner) = .ok s ∧
          s.outbox.foldlM (runInline e.ctx s) c.token = .ok c'.token ∧
          c'.sys = { s with outbox := [] }) ∨
        (c'.token = c.token ∧ c'.sys = (c.dropDeferred owner).sys))) := by
  simp only [Step, exec, bind_eq_ok, require_eq_ok, pure_eq_ok,
    exists_const] at h
  obtain ⟨hslot, d, hd, rfl⟩ := h
  refine ⟨hslot, rfl, ?_⟩
  cases e with
  | token ctx a =>
      simp only [runEvent, bind_eq_ok, pure_eq_ok] at hd
      obtain ⟨token, htoken, rfl⟩ := hd
      exact .inl ⟨ctx, a, rfl, rfl, htoken⟩
  | system ctx a =>
      obtain ⟨s, hs, hout, hsys, _⟩ := runSystem_ok hd
      exact .inr (.inl ⟨ctx, a, s, rfl, hs, hout, hsys⟩)
  | deferred slot isAccount owner =>
      refine .inr (.inr ⟨slot, isAccount, owner, rfl, ?_⟩)
      simp only [runEvent, bind_eq_ok, orStop_eq_ok, require_eq_ok,
        exists_const] at hd
      obtain ⟨_, _, _, hd⟩ := hd
      split at hd
      · next c₁ hc₁ =>
          cases hd
          obtain ⟨s, hs, hout, hsys, _⟩ := runSystem_ok hc₁
          exact .inl ⟨s, hs, hout, hsys⟩
      · cases hd
        exact .inr ⟨rfl, rfl⟩

/-- An action of the system contract and its inline actions. -/
theorem step_apply {env : Env} {ctx : Ctx} {a : SysAction} {c c' : Chain}
    (h : Step env c (.system ctx a) c') :
    ∃ s, System.apply env ctx c.token c.sys a = .ok s ∧
      s.outbox.foldlM (runInline ctx s) c.token = .ok c'.token ∧
      c'.sys = { s with outbox := [] } := by
  simp only [Step, exec, runEvent, bind_eq_ok, require_eq_ok, pure_eq_ok,
    exists_const] at h
  obtain ⟨_, d, hd, rfl⟩ := h
  obtain ⟨s, hs, hout, hsys, _⟩ := runSystem_ok hd
  exact ⟨s, hs, hout, hsys⟩

/-- What an action of the system contract leaves of its tables. -/
theorem step_system {env : Env} {ctx : Ctx} {a : SysAction} {c c' : Chain}
    (h : Step env c (.system ctx a) c') :
    ∃ s, System.apply env ctx c.token c.sys a = .ok s ∧
      c'.sys = { s with outbox := [] } := by
  obtain ⟨s, hs, _, hsys⟩ := step_apply h
  exact ⟨s, hs, hsys⟩

end Chain

end Inery
