import IneryContracts.FairBlockPay
import IneryContracts.InflationIssued
import IneryContracts.ReplayedRun
import IneryContracts.StakeActivation
import Mathlib.Data.ZMod.Basic

/-!
# Every block counts once

Once the chain is activated, the unpaid blocks of a registered producer are the
`onblock` events with its name since its last claim, in 32 bits: no block of
the run is lost, and none is counted again after it has been paid.
-/

namespace Inery

open GuardedStep LedgerVector LabelledRun MachineInt

namespace Event

/-- The event is a block of the producer. -/
def produces (p : Name) : Event → Bool
  | system _ (.onblock _ producer) => producer = p
  | _ => false

/-- The producer claims its pay. -/
def claims (p : Name) : Event → Bool
  | system _ (.claimrewards owner) => owner = p
  | _ => false

end Event

/-! ## One block -/

theorem u32_cast (x : ℤ) : ((u32 x : ℕ) : ZMod (2 ^ 32)) = x := by
  have hmod : ((u32 x : ℕ) : ℤ) = x % (2 ^ 32 : ℕ) := by
    unfold u32
    omega
  rw [← Int.cast_natCast, hmod, ZMod.intCast_mod]

namespace System

variable {ctx : Ctx} {s s' : SysState} {timestamp : UInt32} {producer : Name}

/-- The block of a producer that has a row is counted. -/
theorem countBlock_unpaid (h : countBlock s producer = .ok s')
    {p : ProducerInfo} (hp : s.election.producers.find producer = some p) :
    s'.unpaid = s.unpaid + Pi.single producer
      ((u32 (p.unpaidBlocks + 1) : ℤ) - p.unpaidBlocks) := by
  simp only [countBlock, hp, bind_eq_ok, modify_eq_ok, pure_eq_ok] at h
  obtain ⟨_, ⟨r, hr, hk, rfl⟩, rfl⟩ := h
  obtain rfl : p = r := Option.some.inj hr
  show view _ (KeyedTable.put _ _) = _
  rw [view_put (k := producer), view_of_find hp]
  · rfl
  · exact hk

/-- An active chain counts it in every block. -/
theorem onblock_unpaid (h : onblock ctx s timestamp producer = .ok s')
    (hactive : s.election.threshActivatedStakeTime ≠ 0) {p : ProducerInfo}
    (hp : s.election.producers.find producer = some p) :
    s'.unpaid = s.unpaid + Pi.single producer
      ((u32 (p.unpaidBlocks + 1) : ℤ) - p.unpaidBlocks) := by
  simp only [onblock, bind_eq_ok, Ctx.requireAuth_eq_ok, exists_const,
    if_neg hactive] at h
  obtain ⟨_, s₁, hcount, h⟩ := h
  have hsame : s'.unpaid = s₁.unpaid := by
    split at h
    · cases h
      exact (updateElectedProducers_pay s₁ timestamp).unpaid
    · cases h
      rfl
  rw [hsame, countBlock_unpaid hcount hp]
  rfl

end System

namespace Chain

variable {env : Env} {c c' : Chain} {e : Event} {p : Name}

/-- A producer that has been registered keeps its row. -/
theorem step_producer (h : Step env c e c')
    (hp : (c.sys.election.producers.find p).isSome) :
    (c'.sys.election.producers.find p).isSome := by
  rcases step_standing h with ⟨hsame, _⟩ | ⟨ctx, a, rfl, hmove⟩
  · rw [hsame]
    exact hp
  · cases hmove p with
    | registered auth row prd action signed valid stored =>
        exact Option.isSome_of_mem stored
    | retired old action signed found stored =>
        exact Option.isSome_of_mem stored
    | removed old action signed found stored =>
        exact Option.isSome_of_mem stored
    | made proxy producers old row action signed collateral found stored =>
        exact Option.isSome_of_mem stored
    | kept unranked standing =>
        rw [← Option.isSome_map, standing, Option.isSome_map]
        exact hp

/-- What the tally of a producer rests on: it has a row, and the chain is
active. -/
structure Tallying (p : Name) (c : Chain) : Prop where
  ranged : c.sys.pay.Ranged
  active : c.sys.election.threshActivatedStakeTime ≠ 0
  row : (c.sys.election.producers.find p).isSome

theorem Tallying.step (hc : Tallying p c) (h : Step env c e c') :
    Tallying p c' where
  ranged := ranged_step hc.ranged h
  active := step_thresh h hc.active
  row := step_producer h hc.row

/-- **One event and the unpaid blocks of a producer.** -/
theorem Tallying.unpaid (hc : Tallying p c) (h : Step env c e c') :
    (c'.sys.unpaid p : ZMod (2 ^ 32)) =
      tallied (Event.claims p) (Event.produces p)
        (c.sys.unpaid p : ZMod (2 ^ 32)) e := by
  by_cases hblock : ∃ ctx timestamp producer,
      e = .system ctx (.onblock timestamp producer)
  · obtain ⟨ctx, timestamp, producer, rfl⟩ := hblock
    obtain ⟨s, hs, hsys⟩ := step_system h
    have hunpaid : c'.sys.unpaid = s.unpaid := by rw [hsys]; rfl
    rw [hunpaid]
    by_cases hp : producer = p
    · subst hp
      obtain ⟨row, hrow⟩ := Option.isSome_iff_exists.mp hc.row
      have hold : c.sys.unpaid producer = row.unpaidBlocks :=
        view_of_find hrow
      rw [System.onblock_unpaid hs hc.active hrow, Pi.add_apply,
        Pi.single_eq_same, hold, add_sub_cancel, Int.cast_natCast, u32_cast]
      simp [tallied, Event.claims, Event.produces]
    · have hother : s.unpaid p = c.sys.unpaid p := by
        rcases (System.onblock_counted hs).counted with ⟨_, hsame⟩ |
          ⟨_, _, _, hsame⟩
        · rw [hsame]
        · rw [hsame, Pi.add_apply, Pi.single_eq_of_ne (Ne.symm hp), add_zero]
      rw [hother]
      simp [tallied, Event.claims, Event.produces, hp]
  · have hproduces : e.produces p = false := by
      unfold Event.produces
      split
      · next ctx timestamp producer =>
          exact absurd ⟨ctx, timestamp, producer, rfl⟩ hblock
      · rfl
    rcases step_pay h with ⟨hclaim, hsame⟩ |
      ⟨ctx, timestamp, producer, rfl, _⟩ | ⟨hclaim, hsame, _⟩ | hclaim
    · have hclaims : e.claims p = false := by
        unfold Event.claims
        split
        · exact absurd trivial hclaim
        · rfl
      rw [hsame.unpaid, tallied, hclaims, hproduces]
      rfl
    · exact absurd ⟨ctx, timestamp, producer, rfl⟩ hblock
    · have hclaims : e.claims p = false := by
        unfold Event.claims
        split
        · exact absurd trivial hclaim
        · rfl
      rw [hsame, tallied, hclaims, hproduces]
      rfl
    · obtain ⟨ctx, owner, rfl⟩ := isClaim_iff.mp hclaim
      obtain ⟨s, hs, hsys⟩ := step_system h
      obtain ⟨payout, hpaid⟩ :=
        System.claimrewards_paid hc.ranged.factors hs
      have hunpaid : c'.sys.unpaid = s.unpaid := by rw [hsys]; rfl
      rw [hunpaid, hpaid.unpaid, Pi.sub_apply]
      by_cases hp : owner = p
      · subst hp
        have hold : c.sys.unpaid owner = payout.prod.unpaidBlocks :=
          view_of_find hpaid.row
        rw [Pi.single_eq_same, hold]
        simp [tallied, Event.claims]
      · rw [Pi.single_eq_of_ne (Ne.symm hp), sub_zero]
        simp [tallied, Event.claims, Event.produces, hp]

/-- The unpaid blocks at the end of a run, in 32 bits. -/
theorem Tallying.unpaid_run {es : List Event} (hc : Tallying p c)
    (h : Run (Step env) c es c') :
    (c'.sys.unpaid p : ZMod (2 ^ 32)) =
      ((sinceLast (Event.claims p) es).countP (Event.produces p) :
        ZMod (2 ^ 32)) +
      if es.any (Event.claims p) then 0
      else (c.sys.unpaid p : ZMod (2 ^ 32)) := by
  rw [← foldl_tallied]
  exact (h.replay (I := Tallying p)
    (f := fun c => (c.sys.unpaid p : ZMod (2 ^ 32)))
    (fun _ _ _ hc hstep => ⟨hc.step hstep, hc.unpaid hstep⟩) hc).2

/-- Blocks of one producer are blocks. -/
theorem countP_produces_le (es : List Event) :
    es.countP (Event.produces p) ≤ (blockSlots es).length := by
  induction es with
  | nil => exact Nat.zero_le _
  | cons e es ih =>
      have hblock : e.produces p = true → e.blockSlot.isSome := by
        unfold Event.produces Event.blockSlot
        split <;> simp
      rw [List.countP_cons, blockSlots, List.filterMap_cons]
      cases hslot : e.blockSlot with
      | none =>
          have hno : e.produces p = false := by
            rw [← Bool.not_eq_true]
            intro hyes
            simpa [hslot] using hblock hyes
          simpa [hno, blockSlots] using ih
      | some slot =>
          rw [List.length_cons]
          refine Nat.add_le_add ih ?_
          split <;> omega

end Chain

/-- **Every block counts once.**  From any reachable state of an activated
chain, whatever happens, the unpaid blocks of a registered producer are its
`onblock` events since its last claim, added to those it had where it has not
claimed: in 32 bits always, and exactly where no slot has two blocks. -/
theorem blocks_tallied {env : Env} {ds es : List Event} {c₀ c : Chain}
    {p : Name} (hbefore : Run (Chain.Step env) (.genesis env) ds c₀)
    (hactive : c₀.sys.election.threshActivatedStakeTime ≠ 0)
    (hrow : (c₀.sys.election.producers.find p).isSome)
    (hrun : Run (Chain.Step env) c₀ es c) :
    ∃ old new, c₀.sys.election.producers.find p = some old ∧
      c.sys.election.producers.find p = some new ∧
      new.unpaidBlocks ≡
        (sinceLast (Event.claims p) es).countP (Event.produces p) +
          (if es.any (Event.claims p) then 0 else old.unpaidBlocks)
        [MOD 2 ^ 32] ∧
      ((0 :: blockSlots (ds ++ es)).Nodup → new.unpaidBlocks =
        (sinceLast (Event.claims p) es).countP (Event.produces p) +
          if es.any (Event.claims p) then 0 else old.unpaidBlocks) := by
  have htallying : c₀.Tallying p := ⟨Chain.ranged_run hbefore, hactive, hrow⟩
  obtain ⟨old, hold⟩ := Option.isSome_iff_exists.mp hrow
  have hkept : c.Tallying p := hrun.invariant (I := Chain.Tallying p)
    (fun _ => True) (fun _ _ _ _ hc hstep => hc.step hstep)
    (fun _ _ => trivial) htallying
  obtain ⟨new, hnew⟩ := Option.isSome_iff_exists.mp hkept.row
  have hold' : c₀.sys.unpaid p = old.unpaidBlocks := view_of_find hold
  have hnew' : c.sys.unpaid p = new.unpaidBlocks := view_of_find hnew
  have hmod : new.unpaidBlocks ≡
      (sinceLast (Event.claims p) es).countP (Event.produces p) +
        (if es.any (Event.claims p) then 0 else old.unpaidBlocks)
      [MOD 2 ^ 32] := by
    have htally := htallying.unpaid_run hrun
    rw [hold', hnew'] at htally
    rw [← ZMod.natCast_eq_natCast_iff]
    push_cast at htally ⊢
    exact htally
  refine ⟨old, new, hold, hnew, hmod, fun hslots => ?_⟩
  -- neither side reaches 2^32, as there are not as many slots
  have hsplit : blockSlots (ds ++ es) = blockSlots ds ++ blockSlots es :=
    List.filterMap_append
  have hcounts := Chain.blockCounts_run (hbefore.append hrun) hslots
  have hlength := length_blockSlots hslots
  have hnodup := hslots
  rw [hsplit, ← List.cons_append] at hnodup
  have hcounts₀ := Chain.blockCounts_run hbefore (List.nodup_append.mp hnodup).1
  have hnew₁ := hcounts.unpaid_le hnew
  have hold₁ := hcounts₀.unpaid_le hold
  have hblocks := hcounts.blocks
  have hblocks₀ := hcounts₀.blocks
  have hcount := Chain.countP_produces_le (p := p) es
  have hsince : (sinceLast (Event.claims p) es).countP (Event.produces p) ≤
      es.countP (Event.produces p) :=
    (List.rtakeWhile_suffix _ _).sublist.countP_le
  rw [hsplit, List.length_append] at hblocks hlength
  refine Nat.ModEq.eq_of_lt_of_lt hmod (by omega) ?_
  split <;> omega

/-- Three more blocks, and a claim after the first. -/
def furtherBlocks : List Event :=
  [.system (.signedBy systemAccount 7) (.onblock 7 alice),
    .system (.signedBy alice 200000) (.claimrewards alice),
    .system (.signedBy systemAccount 200001) (.onblock 200001 alice),
    .system (.signedBy systemAccount 200002) (.onblock 200002 bob)]

/-- One block of `alice` is not paid yet, two of `bob`. -/
theorem blocks_tallied_sample : ∃ (c : Chain) (p q : ProducerInfo),
    c.sys.election.producers.find alice = some p ∧ p.unpaidBlocks = 1 ∧
    c.sys.election.producers.find bob = some q ∧ q.unpaidBlocks = 2 := by
  have hsample : Finishes (producingBlocks.foldlM (Chain.exec payEnv)
      (.genesis payEnv)) (fun c₀ =>
        c₀.sys.election.threshActivatedStakeTime ≠ 0 ∧
        (c₀.sys.election.producers.find alice).isSome ∧
        (c₀.sys.election.producers.find bob).any
          (fun q => q.unpaidBlocks = 1) = true ∧
        Finishes (furtherBlocks.foldlM (Chain.exec payEnv) c₀)
          (fun _ => True)) := by
    decide +kernel
  obtain ⟨c₀, hc₀, hactive, halice, hbob, c, hc, _⟩ := hsample
  obtain ⟨q₀, hq₀, hunpaid⟩ := (Option.any_eq_true _ _).mp hbob
  have hslots : (0 :: blockSlots (producingBlocks ++ furtherBlocks)).Nodup := by
    decide +kernel
  obtain ⟨_, p, _, hp, _, htally⟩ := blocks_tallied (Run.of_foldlM hc₀)
    hactive halice (Run.of_foldlM hc)
  obtain ⟨q₁, q, hq₁, hq, _, htally'⟩ := blocks_tallied (Run.of_foldlM hc₀)
    hactive (Option.isSome_of_mem hq₀) (Run.of_foldlM hc)
  obtain rfl : q₀ = q₁ := Option.some.inj (hq₀.symm.trans hq₁)
  refine ⟨c, p, q, hp, ?_, hq, ?_⟩
  · rw [htally hslots, if_pos (by decide)]
    decide
  · rw [htally' hslots, of_decide_eq_true hunpaid]
    decide

end Inery
