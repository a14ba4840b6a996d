import IneryContracts.InflationIssued
import IneryContracts.ShareAccounting

/-!
# Claims keep their distance

A producer's row keeps the time of its last claim, which starts at its first
registration.  Only its own claims move it, and each of them waits for more
than a day: neither a new registration nor the removal of a producer opens the
door any earlier.
-/

namespace Inery

open GuardedStep LedgerVector LabelledRun MachineInt

/-! ## Spaced times -/

/-- Times that lie more than `d` apart. -/
def Spaced (d : ℤ) (times : List ℤ) : Prop :=
  times.IsChain (fun s t => s + d < t)

theorem Spaced.snoc {d t : ℤ} {times : List ℤ} (h : Spaced d times)
    (ht : ∀ s, times.getLast? = some s → s + d < t) :
    Spaced d (times ++ [t]) := by
  refine List.isChain_append.mpr ⟨h, List.isChain_singleton t, ?_⟩
  intro s hs u hu
  obtain rfl : t = u := by simpa using hu
  exact ht s hs

/-- Spaced times take as long as there are spaces between them. -/
theorem Spaced.span {d s t : ℤ} {times : List ℤ} (h : Spaced d (s :: times))
    (ht : (s :: times).getLast? = some t) : s + times.length * d ≤ t := by
  induction times generalizing s with
  | nil =>
      obtain rfl : s = t := by simpa using ht
      simp
  | cons u times ih =>
      obtain ⟨hnext, hrest⟩ := List.isChain_cons_cons.mp h
      have hlast := ih hrest (by simpa using ht)
      push_cast [List.length_cons]
      linarith

/-! ## The last claim -/

namespace Event

/-- The time at which the producer claims. -/
def claimTime (p : Name) : Event → Option ℤ
  | system ctx (.claimrewards owner) =>
      if owner = p then some ctx.currentTimePoint else none
  | _ => none

/-- The time at which the producer registers. -/
def enrolTime (p : Name) : Event → Option ℤ
  | system ctx (.regproducer producer _ _ _) =>
      if producer = p then some ctx.currentTimePoint else none
  | system ctx (.regproducer2 producer _ _ _) =>
      if producer = p then some ctx.currentTimePoint else none
  | _ => none

end Event

/-- The times of the last claims that the rows of the producers hold. -/
def lastClaims (producers : KeyedTable ProducerInfo.owner) (p : Name) :
    Option ℤ :=
  (producers.find p).map ProducerInfo.lastClaimTime

section Writes

variable {producers : KeyedTable ProducerInfo.owner} {p k : Name}
  {r old : ProducerInfo}

theorem lastClaims_of_find (h : producers.find p = some r) :
    lastClaims producers p = some r.lastClaimTime := by
  rw [lastClaims, h, Option.map_some]

/-- Storing a row in the place of one with the same key. -/
theorem lastClaims_put (r : ProducerInfo) (hk : r.owner = k) (p : Name) :
    lastClaims (producers.put r) p =
      if p = k then some r.lastClaimTime else lastClaims producers p := by
  unfold lastClaims
  rw [KeyedTable.find_put_of_key hk]
  split <;> rfl

/-- Storing a row with the time the key has had. -/
theorem lastClaims_keep (hold : producers.find k = some old)
    (hk : r.owner = k) (ht : r.lastClaimTime = old.lastClaimTime)
    (p : Name) :
    lastClaims (producers.put r) p = lastClaims producers p :=
  SameBy.put (g := ProducerInfo.lastClaimTime) hold hk ht p

end Writes

namespace System

variable {env : Env} {ctx : Ctx} {t : TokenState} {s s' : SysState} {p : Name}

/-- Registering sets the time of a new row. -/
theorem registerRows_lastClaims {e e' : Election} {producer : Name}
    {auth : BlockSigningAuthority} {url : String} {location : UInt16}
    (h : registerRows ctx e producer auth url location = .ok e')
    (hpos : lastClaims e.producers producer ≠ some 0) (p : Name) :
    lastClaims e'.producers p = if p = producer then
      some ((lastClaims e.producers producer).getD ctx.currentTimePoint)
      else lastClaims e.producers p := by
  unfold registerRows at h
  dsimp only at h
  split at h
  · next old hold =>
      simp only [bind_eq_ok, modify_eq_ok] at h
      obtain ⟨producers, ⟨row, hrow, hk, hput⟩, h⟩ := h
      obtain rfl : old = row := Option.some.inj (hold.symm.trans hrow)
      have hproducers : e'.producers = producers := by
        split at h
        · simp only [bind_eq_ok, emplace_eq_ok, pure_eq_ok] at h
          obtain ⟨_, ⟨_, rfl⟩, rfl⟩ := h
          rfl
        · cases h
          rfl
      rw [lastClaims_of_find hold] at hpos
      rw [hproducers, hput, lastClaims_of_find hold, Option.getD_some]
      refine Eq.trans (lastClaims_put (k := producer) _ ?_ p) ?_
      · exact hk
      · rw [if_neg fun hzero => hpos (congrArg some hzero)]
  · next hnone =>
      simp only [bind_eq_ok, emplace_eq_ok, pure_eq_ok] at h
      obtain ⟨_, ⟨_, rfl⟩, _, ⟨_, rfl⟩, rfl⟩ := h
      have hold : lastClaims e.producers producer = none := by
        rw [lastClaims, hnone, Option.map_none]
      rw [hold]
      exact lastClaims_put _ rfl p

/-- A registration sets the last claim of a new producer to the present. -/
theorem registerProducer_lastClaims {producer : Name}
    {auth : BlockSigningAuthority} {url : String} {location : UInt16}
    (h : registerProducer ctx s producer auth url location = .ok s')
    (hpos : lastClaims s.election.producers producer ≠ some 0) (p : Name) :
    lastClaims s'.election.producers p = if p = producer then
      some ((lastClaims s.election.producers producer).getD
        ctx.currentTimePoint)
      else lastClaims s.election.producers p := by
  simp only [registerProducer, bind_eq_ok] at h
  obtain ⟨e, hrows, h⟩ := h
  have helection : s'.election = e := by
    split at h
    · simp only [bind_eq_ok, pure_eq_ok] at h
      obtain ⟨_, _, rfl⟩ := h
      rfl
    · simp only [bind_eq_ok, pure_eq_ok] at h
      obtain ⟨_, _, rfl⟩ := h
      rfl
  rw [helection]
  exact registerRows_lastClaims hrows hpos p

/-- Blocks leave the times alone. -/
theorem onblock_lastClaims {timestamp : UInt32} {producer : Name}
    (h : onblock ctx s timestamp producer = .ok s') (p : Name) :
    lastClaims s'.election.producers p = lastClaims s.election.producers p := by
  simp only [onblock, bind_eq_ok] at h
  obtain ⟨_, _, h⟩ := h
  split at h
  · cases h
    rfl
  · simp only [bind_eq_ok] at h
    obtain ⟨s₁, hcount, h⟩ := h
    have hcounted : lastClaims s₁.election.producers p =
        lastClaims s.election.producers p := by
      unfold countBlock at hcount
      split at hcount
      · simp only [bind_eq_ok, modify_eq_ok, pure_eq_ok] at hcount
        obtain ⟨_, ⟨row, hrow, hk, rfl⟩, rfl⟩ := hcount
        refine lastClaims_keep hrow ?_ ?_ p
        · exact hk
        · rfl
      · cases hcount
        rfl
    rw [← hcounted]
    split at h
    · cases h
      unfold updateElectedProducers
      dsimp only
      split <;> rfl
    · cases h
      rfl

/-- A claim waits for more than a day and sets the time of its row. -/
theorem claimrewards_lastClaims {owner : Name}
    (h : claimrewards ctx t s owner = .ok s') :
    ∃ last, lastClaims s.election.producers owner = some last ∧
      last + usecondsPerDay < ctx.currentTimePoint ∧
      ∀ p, lastClaims s'.election.producers p = if p = owner then
        some ctx.currentTimePoint else lastClaims s.election.producers p := by
  simp only [claimrewards, bind_eq_ok, tableGet_eq_ok, check_eq_ok,
    modify_eq_ok, pure_eq_ok, exists_const] at h
  obtain ⟨_, _, prod, hprod, _, hday, s₁, hfill, _, _, r₁, hprod2, r₂,
    hshare, _, _, _, _, _, ⟨row, hrow, hk, rfl⟩, s₂, hpay₁, s₃, hpay₂, _,
    ⟨row', hrow', hk', rfl⟩, rfl⟩ := h
  obtain ⟨pay, _, rfl⟩ := fillBuckets_paysOnly hfill
  obtain ⟨_, _, hs₃⟩ :=
    (sendPay_paysOnly hpay₁).trans (sendPay_paysOnly hpay₂)
  have hshares := ((claimedProd2_only hprod2).trans
    (updateProducerVotepayShare_only hshare)).trans
    (settledTotals_only r₂.1 (pay.revision > 0) ctx.currentTimePoint (-r₂.2)
      (if r₁.2.2 = true then prod.totalVotes else 0))
  refine ⟨prod.lastClaimTime, lastClaims_of_find hprod, by omega, fun p => ?_⟩
  refine Eq.trans (lastClaims_keep hrow' ?_ ?_ p) ?_
  · exact hk'
  · rfl
  rw [hs₃]
  refine Eq.trans (lastClaims_put (k := owner) _ ?_ p) ?_
  · exact hk
  · rw [hshares.producers]

/-- Leaving the schedule keeps all claim times. -/
theorem unregprod_lastClaims {producer : Name}
    (h : unregprod ctx s producer = .ok s') (p : Name) :
    lastClaims s'.election.producers p = lastClaims s.election.producers p := by
  simp only [unregprod, bind_eq_ok, modify_eq_ok] at h
  obtain ⟨_, _, _, _, _, ⟨row, hrow, hk, rfl⟩, h⟩ := h
  split at h
  · simp only [bind_eq_ok, pure_eq_ok] at h
    obtain ⟨_, _, rfl⟩ := h
    exact lastClaims_keep (r := row.deactivate) hrow hk rfl p
  · cases h
    exact lastClaims_keep (r := row.deactivate) hrow hk rfl p

/-- So does being removed from it. -/
theorem rmvproducer_lastClaims {producer : Name}
    (h : rmvproducer ctx s producer = .ok s') (p : Name) :
    lastClaims s'.election.producers p = lastClaims s.election.producers p := by
  simp only [rmvproducer, bind_eq_ok, modify_eq_ok, pure_eq_ok] at h
  obtain ⟨_, _, _, _, _, ⟨row, hrow, hk, rfl⟩, rfl⟩ := h
  exact lastClaims_keep (r := row.deactivate) hrow hk rfl p

/-- So does a vote. -/
theorem makeprod_lastClaims {voter proxy : Name} {producers : List Name}
    (h : makeprod env ctx t s voter proxy producers = .ok s') (p : Name) :
    lastClaims s'.election.producers p = lastClaims s.election.producers p := by
  obtain ⟨_, _, row, election, _, _, hrow, hvotes, rfl, _, _, hk⟩ :=
    makeprod_ok h
  have hvoted := (Election.updateVotes_record hvotes).producers.map
    (f := ProducerInfo.lastClaimTime) (fun q q' hq =>
      show q.record.lastClaimTime = q'.record.lastClaimTime from
        congrArg _ hq) p
  exact hvoted.trans
    (lastClaims_keep (r := { row with isProducer := true }) hrow hk rfl p)

end System

/-! ## One event -/

/-- What an event makes of the time of the last claim. -/
def nextClaim (p : Name) (last : Option ℤ) (e : Event) : Option ℤ :=
  match e.claimTime p, e.enrolTime p with
  | some t, _ => some t
  | none, some t => some (last.getD t)
  | none, none => last

/-- An event that neither claims nor registers. -/
theorem nextClaim_of_none {p : Name} {last : Option ℤ} {e : Event}
    (hclaim : e.claimTime p = none) (henrol : e.enrolTime p = none) :
    nextClaim p last e = last := by
  rw [nextClaim, hclaim, henrol]

/-- A claim is dated at its block. -/
theorem nextClaim_claim {p owner : Name} {last : Option ℤ} {ctx : Ctx} :
    nextClaim p last (.system ctx (.claimrewards owner)) =
      if p = owner then some ctx.currentTimePoint else last := by
  by_cases hp : owner = p
  · simp [nextClaim, Event.claimTime, hp]
  · simp [nextClaim, Event.claimTime, Event.enrolTime, hp, Ne.symm hp]

/-- The time of a registration. -/
theorem nextClaim_enrol {p producer : Name} {last : Option ℤ} {e : Event}
    {t : ℤ} (hclaim : e.claimTime p = none)
    (henrol : e.enrolTime p = if producer = p then some t else none) :
    nextClaim p last e =
      if p = producer then some (last.getD t) else last := by
  by_cases hp : producer = p
  · rw [if_pos hp] at henrol
    rw [nextClaim, hclaim, henrol, if_pos hp.symm]
  · rw [if_neg hp] at henrol
    rw [nextClaim, hclaim, henrol, if_neg (Ne.symm hp)]

namespace System

variable {env : Env} {ctx : Ctx} {t : TokenState} {s s' : SysState}

/-- **What an action makes of the times of the last claims.** -/
theorem apply_lastClaims {a : SysAction} (h : apply env ctx t s a = .ok s')
    (hpos : ∀ p, lastClaims s.election.producers p ≠ some 0) (p : Name) :
    lastClaims s'.election.producers p =
      nextClaim p (lastClaims s.election.producers p) (.system ctx a) := by
  by_cases haside : a.Aside
  · have hsame := (apply_aside haside h).producers.map
      (f := ProducerInfo.lastClaimTime) (fun q q' hq =>
        show q.record.lastClaimTime = q'.record.lastClaimTime from
          congrArg _ hq) p
    refine Eq.trans hsame (nextClaim_of_none ?_ ?_).symm
    · cases a <;> first | rfl | exact haside.elim
    · cases a <;> first | rfl | exact haside.elim
  · cases a with
    | onblock timestamp producer => exact onblock_lastClaims h p
    | setinflation rate payFactor voteFactor =>
        simp only [apply, setinflation, bind_eq_ok, pure_eq_ok] at h
        obtain ⟨_, _, _, _, _, _, _, _, rfl⟩ := h
        rfl
    | claimrewards owner =>
        obtain ⟨_, _, _, hlast⟩ := claimrewards_lastClaims h
        rw [hlast p, nextClaim_claim]
    | regproducer producer key url location =>
        simp only [apply, regproducer, bind_eq_ok] at h
        obtain ⟨_, _, _, _, h⟩ := h
        rw [registerProducer_lastClaims h (hpos producer) p,
          nextClaim_enrol rfl rfl]
        split
        · next hp => rw [hp]
        · rfl
    | regproducer2 producer auth url location =>
        simp only [apply, regproducer2, bind_eq_ok] at h
        obtain ⟨_, _, _, _, _, _, h⟩ := h
        rw [registerProducer_lastClaims h (hpos producer) p,
          nextClaim_enrol rfl rfl]
        split
        · next hp => rw [hp]
        · rfl
    | unregprod producer => exact unregprod_lastClaims h p
    | rmvproducer producer => exact rmvproducer_lastClaims h p
    | makeprod voter proxy producers => exact makeprod_lastClaims h p
    | _ => exact absurd trivial haside

end System

namespace Chain

variable {env : Env} {c c' : Chain} {e : Event}

/-- The time of the last claim of a producer. -/
def lastClaim (c : Chain) (p : Name) : Option ℤ :=
  lastClaims c.sys.election.producers p

/-- No row holds the time zero. -/
def Clocked (c : Chain) : Prop := ∀ p, c.lastClaim p ≠ some 0

/-- **One event and the time of the last claim.** -/
theorem Clocked.next (hc : c.Clocked) (h : Step env c e c') (p : Name) :
    c'.lastClaim p = nextClaim p (c.lastClaim p) e := by
  obtain ⟨_, _, ⟨ctx, a, rfl, hsys, _⟩ | ⟨ctx, a, s, rfl, happly, _, hsys⟩ |
    ⟨slot, isAccount, owner, rfl, ⟨s, happly, _, hsys⟩ | ⟨_, hsys⟩⟩⟩ :=
    step_cases h
  · rw [lastClaim, hsys]
    rfl
  · rw [lastClaim, hsys]
    exact System.apply_lastClaims happly hc p
  · obtain ⟨_, _, _, _, _, rfl⟩ := System.refund_ok happly
    rw [lastClaim, hsys]
    rfl
  · rw [lastClaim, hsys]
    rfl

/-- No event writes the time zero. -/
theorem Clocked.step (hc : c.Clocked) (h : Step env c e c') : c'.Clocked := by
  intro p
  have hnow : ∀ t, e.claimTime p = some t ∨ e.enrolTime p = some t →
      t ≠ 0 := by
    intro t ht
    have hctx : t = e.ctx.currentTimePoint := by
      unfold Event.claimTime Event.enrolTime at ht
      split at ht <;> split at ht <;> simp_all [Event.ctx]
    rw [hctx]
    exact (System.currentTimePoint_pos e.ctx).ne'
  rw [hc.next h p, nextClaim]
  cases hclaim : e.claimTime p with
  | some t => exact fun hzero => hnow t (.inl hclaim) (Option.some.inj hzero)
  | none =>
      cases henrol : e.enrolTime p with
      | none => exact hc p
      | some t =>
          cases hlast : c.lastClaim p with
          | none =>
              exact fun hzero => hnow t (.inr henrol) (Option.some.inj hzero)
          | some last => exact fun hzero => hc p (hlast.trans hzero)

theorem clocked_genesis (env : Env) : (genesis env).Clocked := by
  intro p
  simp [lastClaim, lastClaims, genesis, SysState.genesis]

/-- A claim waits for more than a day. -/
theorem step_claim (h : Step env c e c') {p : Name} {t : ℤ}
    (ht : e.claimTime p = some t) :
    ∃ last, c.lastClaim p = some last ∧ last + usecondsPerDay < t := by
  unfold Event.claimTime at ht
  split at ht
  · next ctx owner =>
      obtain ⟨s, hs, _⟩ := step_system h
      obtain ⟨last, hlast, hday, _⟩ := System.claimrewards_lastClaims hs
      split at ht
      · next howner =>
          cases ht
          exact ⟨last, howner ▸ hlast, hday⟩
      · cases ht
  · cases ht

end Chain

/-! ## Runs -/

/-- The times at which a producer has claimed. -/
def claimTimes (p : Name) (es : List Event) : List ℤ :=
  es.filterMap (Event.claimTime p)

/-- The time at which a producer has first registered. -/
def firstEnrolment (p : Name) (es : List Event) : Option ℤ :=
  es.findSome? (Event.enrolTime p)

theorem claimTimes_snoc (p : Name) (es : List Event) (e : Event) :
    claimTimes p (es ++ [e]) = claimTimes p es ++ (e.claimTime p).toList := by
  rw [claimTimes, List.filterMap_append, claimTimes]
  cases h : e.claimTime p <;> simp [h]

theorem firstEnrolment_snoc (p : Name) (es : List Event) (e : Event) :
    firstEnrolment p (es ++ [e]) =
      (firstEnrolment p es).or (e.enrolTime p) := by
  rw [firstEnrolment, List.findSome?_append, firstEnrolment]
  cases h : e.enrolTime p <;> simp [h]

/-- What the history tells of the time of the last claim: the row is there
since the first registration, and its time is the last of the spaced times of
the registration and the claims. -/
def PacedAs (p : Name) (es : List Event) : Option ℤ → Prop
  | none => firstEnrolment p es = none ∧ claimTimes p es = []
  | some last => ∃ start, firstEnrolment p es = some start ∧
      (start :: claimTimes p es).getLast? = some last ∧
      Spaced usecondsPerDay (start :: claimTimes p es)

/-- An event after the history. -/
theorem PacedAs.snoc {p : Name} {es : List Event} {last : Option ℤ} {e : Event}
    (h : PacedAs p es last)
    (hclaim : ∀ t, e.claimTime p = some t →
      ∃ s, last = some s ∧ s + usecondsPerDay < t) :
    PacedAs p (es ++ [e]) (nextClaim p last e) := by
  cases ht : e.claimTime p with
  | some t =>
      obtain ⟨s, rfl, hday⟩ := hclaim t ht
      obtain ⟨start, hstart, hlast, hspaced⟩ := h
      rw [nextClaim, ht]
      refine ⟨start, ?_, ?_, ?_⟩
      · rw [firstEnrolment_snoc, hstart, Option.some_or]
      · rw [claimTimes_snoc, ht, Option.toList_some, ← List.cons_append,
          List.getLast?_concat]
      · rw [claimTimes_snoc, ht, Option.toList_some, ← List.cons_append]
        refine hspaced.snoc fun u hu => ?_
        rw [hlast] at hu
        cases hu
        exact hday
  | none =>
      have hsame : claimTimes p (es ++ [e]) = claimTimes p es := by
        rw [claimTimes_snoc, ht, Option.toList_none, List.append_nil]
      cases last with
      | some s =>
          obtain ⟨start, hstart, hlast, hspaced⟩ := h
          have hnext : nextClaim p (some s) e = some s := by
            rw [nextClaim, ht]
            cases e.enrolTime p <;> rfl
          rw [hnext]
          refine ⟨start, ?_, ?_, ?_⟩
          · rw [firstEnrolment_snoc, hstart, Option.some_or]
          · rw [hsame]
            exact hlast
          · rw [hsame]
            exact hspaced
      | none =>
          obtain ⟨hnone, hempty⟩ := h
          cases henrol : e.enrolTime p with
          | none =>
              rw [nextClaim_of_none ht henrol]
              refine ⟨?_, hsame.trans hempty⟩
              rw [firstEnrolment_snoc, hnone, henrol, Option.none_or]
          | some t =>
              have hnext : nextClaim p none e = some t := by
                rw [nextClaim, ht, henrol]
                rfl
              rw [hnext]
              refine ⟨t, ?_, ?_, ?_⟩
              · rw [firstEnrolment_snoc, hnone, henrol, Option.none_or]
              · rw [hsame, hempty]
                rfl
              · rw [hsame, hempty]
                exact List.isChain_singleton t

/-- **Claims keep their distance.**  In every run the claims of a producer lie
more than a day apart, and the first of them more than a day after its first
registration, however often it registers anew or is removed in between; so
there are no more of them than days since then. -/
theorem claims_paced {env : Env} {es : List Event} {c : Chain}
    (hrun : Run (Chain.Step env) (.genesis env) es c) (p : Name) :
    (firstEnrolment p es = none ∧ claimTimes p es = []) ∨
    ∃ start last, firstEnrolment p es = some start ∧
      c.lastClaim p = some last ∧
      Spaced usecondsPerDay (start :: claimTimes p es) ∧
      start + (claimTimes p es).length * usecondsPerDay ≤ last := by
  have hpaced : c.Clocked ∧ PacedAs p es (c.lastClaim p) := by
    refine hrun.history (H := fun es c =>
      c.Clocked ∧ PacedAs p es (c.lastClaim p)) ?_ ?_
    · exact ⟨Chain.clocked_genesis env, rfl, rfl⟩
    · intro ds u e v hu hstep
      refine ⟨hu.1.step hstep, ?_⟩
      rw [hu.1.next hstep p]
      exact hu.2.snoc fun t ht => Chain.step_claim hstep ht
  cases hlast : c.lastClaim p with
  | none =>
      rw [hlast] at hpaced
      exact .inl hpaced.2
  | some last =>
      rw [hlast] at hpaced
      obtain ⟨_, start, hstart, hend, hspaced⟩ := hpaced
      exact .inr ⟨start, last, hstart, rfl, hspaced, hspaced.span hend⟩

/-- `alice` claims twice. -/
def claimingTwice : List Event :=
  claimingEvents ++
    [.system (.signedBy alice 372801) (.claimrewards alice)]

theorem claims_paced_sample : ∃ c : Chain,
    c.lastClaim alice = some (946684800000000 + 372801 * 500000) ∧
    Spaced usecondsPerDay [946684800000000 + 2 * 500000,
      946684800000000 + 200000 * 500000,
      946684800000000 + 372801 * 500000] := by
  have hsample : Finishes (claimingTwice.foldlM (Chain.exec payEnv)
      (.genesis payEnv)) (fun c => c.lastClaim alice =
        some (946684800000000 + 372801 * 500000)) := by
    decide +kernel
  obtain ⟨c, hrun, hlast⟩ := hsample
  have henrol : firstEnrolment alice claimingTwice ≠ none := by decide +kernel
  obtain ⟨hnone, _⟩ | ⟨start, _, hstart, _, hspaced, _⟩ :=
    claims_paced (Run.of_foldlM hrun) alice
  · exact absurd hnone henrol
  · refine ⟨c, hlast, ?_⟩
    have hfirst : start = 946684800000000 + 2 * 500000 := by
      have hsome : firstEnrolment alice claimingTwice =
          some (946684800000000 + 2 * 500000) := by
        decide +kernel
      exact Option.some.inj (hstart.symm.trans hsome)
    have htimes : claimTimes alice claimingTwice =
        [946684800000000 + 200000 * 500000,
          946684800000000 + 372801 * 500000] := by
      decide +kernel
    rw [hfirst, htimes] at hspaced
    exact hspaced

end Inery
