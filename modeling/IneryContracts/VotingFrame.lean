import IneryContracts.VotingContract

/-!
# What voting leaves alone

No function of the voting part touches a stake, a flag or the registration of
an account: of the voters it moves the weights and the choice, of the
producers the total votes and the shares.  This is one preorder on elections,
and every function is shown to stay within it.
-/

namespace Inery

open GuardedStep LedgerVector MachineInt

/-- A field of the rows of a table that two tables agree on. -/
def SameBy {K R S : Type} {key : R → K} [DecidableEq K] (g : R → S)
    (t t' : KeyedTable key) : Prop :=
  ∀ k, (t'.find k).map g = (t.find k).map g

section SameBy

variable {K R S : Type} {key : R → K} [DecidableEq K] {g : R → S}

/-- A table agrees with itself. -/
theorem SameBy.refl (t : KeyedTable key) : SameBy g t t := fun _ => rfl

/-- Agreement carries on. -/
theorem SameBy.trans {t u v : KeyedTable key} (h₁ : SameBy g t u)
    (h₂ : SameBy g u v) : SameBy g t v := fun k => (h₂ k).trans (h₁ k)

/-- Rewriting a row without changing the field. -/
theorem SameBy.put {t : KeyedTable key} {r r' : R} {k : K}
    (hr : t.find k = some r) (hk : key r' = k) (hg : g r' = g r) :
    SameBy g t (t.put r') := by
  intro j
  rw [KeyedTable.find_put_of_key hk]
  by_cases hj : j = k
  · subst hj
    simp [hr, hg]
  · simp [hj]

/-- Where a row has come from. -/
theorem SameBy.find {t t' : KeyedTable key} (h : SameBy g t t') {k : K}
    {r' : R} (hr' : t'.find k = some r') :
    ∃ r, t.find k = some r ∧ g r' = g r := by
  have hk := h k
  rw [hr', Option.map_some] at hk
  obtain ⟨r, hr, hg⟩ := Option.map_eq_some_iff.mp hk.symm
  exact ⟨r, hr, hg.symm⟩

/-- Agreement goes both ways. -/
theorem SameBy.symm {t t' : KeyedTable key} (h : SameBy g t t') :
    SameBy g t' t := fun k => (h k).symm

/-- A field that another field determines. -/
theorem SameBy.map {S' : Type} {f : R → S'} {t t' : KeyedTable key}
    (h : SameBy g t t') (hf : ∀ r r', g r = g r' → f r = f r') :
    SameBy f t t' := by
  intro k
  cases hr' : t'.find k with
  | none =>
      have hr : t.find k = none := by
        simpa [hr'] using (h k).symm
      rw [hr]
  | some r' =>
      obtain ⟨r, hr, hg⟩ := h.find hr'
      rw [hr, Option.map_some, Option.map_some, hf r' r hg]

/-- Amounts that the field determines spell the same ledger. -/
theorem SameBy.view_eq {M : Type} [AddCommGroup M] {f : R → M}
    {t t' : KeyedTable key} (h : SameBy g t t')
    (hf : ∀ r r', g r = g r' → f r = f r') : view f t' = view f t := by
  funext k
  cases hr' : t'.find k with
  | none =>
      have hr : t.find k = none := by
        simpa [hr'] using (h k).symm
      rw [view_of_none hr, view_of_none hr']
  | some r' =>
      obtain ⟨r, hr, hg⟩ := h.find hr'
      rw [view_of_find hr, view_of_find hr', hf r' r hg]

end SameBy

/-- A voter without the fields that voting moves. -/
def VoterInfo.record (v : VoterInfo) : VoterInfo :=
  { v with
    proxy := .none
    producers := []
    lastVoteWeight := 0
    proxiedVoteWeight := 0 }

/-- A producer without the total votes. -/
def ProducerInfo.record (p : ProducerInfo) : ProducerInfo :=
  { p with totalVotes := 0 }

namespace Election

/-- Voting may lead from `e` to `e'`. -/
structure SameRecord (e e' : Election) : Prop where
  voters : SameBy VoterInfo.record e.voters e'.voters
  producers : SameBy ProducerInfo.record e.producers e'.producers

/-- The records agree with themselves. -/
theorem SameRecord.refl (e : Election) : SameRecord e e :=
  ⟨.refl _, .refl _⟩

/-- Agreement of the records carries on. -/
theorem SameRecord.trans (e₁ e₂ e₃ : Election) (h : SameRecord e₁ e₂)
    (h' : SameRecord e₂ e₃) : SameRecord e₁ e₃ :=
  ⟨h.voters.trans h'.voters, h.producers.trans h'.producers⟩

/-- The stakes the voters vote with. -/
def staked (e : Election) : Name → ℤ := view VoterInfo.staked e.voters

/-- The stakes are read off the voters alone. -/
theorem staked_congr {e e' : Election} (h : e'.voters = e.voters) :
    e'.staked = e.staked := by
  rw [staked, h, staked]

/-- The stakes are part of the records. -/
theorem SameRecord.staked_eq {e e' : Election} (h : SameRecord e e') :
    e'.staked = e.staked :=
  h.voters.view_eq (fun v v' hv =>
    show v.record.staked = v'.record.staked from congrArg _ hv)

/-- Rewriting the weights or the choice of a voter. -/
theorem SameRecord.voter {e : Election} {k : Name} {f : VoterInfo → VoterInfo}
    {voters : KeyedTable VoterInfo.owner}
    (h : modify e.voters k f = .ok voters)
    (hf : ∀ v, (f v).record = v.record) :
    SameRecord e { e with voters } := by
  obtain ⟨v, hv, hk, rfl⟩ := modify_eq_ok.mp h
  exact ⟨.put hv hk (hf v), .refl _⟩

/-- Rewriting the total votes of a producer. -/
theorem SameRecord.producer {e : Election} {k : Name}
    {f : ProducerInfo → ProducerInfo}
    {producers : KeyedTable ProducerInfo.owner}
    (h : modify e.producers k f = .ok producers)
    (hf : ∀ p, (f p).record = p.record) :
    SameRecord e { e with producers } := by
  obtain ⟨p, hp, hk, rfl⟩ := modify_eq_ok.mp h
  exact ⟨.refl _, .put hp hk (hf p)⟩

/-- Two elections with the same voters, which count the same votes. -/
structure SameVotes (e e' : Election) : Prop where
  voters : e'.voters = e.voters
  votes : view ProducerInfo.totalVotes e'.producers =
    view ProducerInfo.totalVotes e.producers
  rows : ∀ p, (e.producers.find p).isSome → (e'.producers.find p).isSome
  total : e'.totalProducerVoteWeight = e.totalProducerVoteWeight
  clamped : e'.clampedVotes = e.clampedVotes
  activated : e'.totalActivatedStake = e.totalActivatedStake
  thresh : e'.threshActivatedStakeTime = e.threshActivatedStakeTime

/-- The votes agree with themselves. -/
theorem SameVotes.refl (e : Election) : SameVotes e e :=
  ⟨rfl, rfl, fun _ => id, rfl, rfl, rfl, rfl⟩

/-- Agreement of the votes carries on. -/
theorem SameVotes.trans {e₁ e₂ e₃ : Election} (h : SameVotes e₁ e₂)
    (h' : SameVotes e₂ e₃) : SameVotes e₁ e₃ :=
  ⟨h'.voters.trans h.voters, h'.votes.trans h.votes,
    fun p hp => h'.rows p (h.rows p hp), h'.total.trans h.total,
    h'.clamped.trans h.clamped, h'.activated.trans h.activated,
    h'.thresh.trans h.thresh⟩

/-- Rewriting producers without their votes. -/
theorem SameVotes.producers {e : Election} {S : Type} {g : ProducerInfo → S}
    {producers : KeyedTable ProducerInfo.owner}
    (h : SameBy g e.producers producers)
    (hg : ∀ p q, g p = g q → p.totalVotes = q.totalVotes) :
    SameVotes e { e with producers } := by
  refine ⟨rfl, h.view_eq hg, fun p hp => ?_, rfl, rfl, rfl, rfl⟩
  obtain ⟨r, hr⟩ := Option.isSome_iff_exists.mp hp
  obtain ⟨r', hr', _⟩ := h.symm.find hr
  exact Option.isSome_of_mem hr'

/-- Writing a producer without its votes. -/
theorem SameVotes.put {e : Election} {r : ProducerInfo} {k : Name}
    (hk : r.owner = k)
    (hvotes : r.totalVotes = view ProducerInfo.totalVotes e.producers k) :
    SameVotes e { e with producers := e.producers.put r } := by
  refine ⟨rfl, ?_, fun p hp => ?_, rfl, rfl, rfl, rfl⟩
  · exact view_put_same _ _ hk hvotes
  · dsimp only
    rw [KeyedTable.find_put]
    split
    · rfl
    · exact hp

/-- Of two elections only the shares of the vote pay differ. -/
structure SharesOnly (e e' : Election) : Prop where
  voters : e'.voters = e.voters
  producers : e'.producers = e.producers
  total : e'.totalProducerVoteWeight = e.totalProducerVoteWeight
  clamped : e'.clampedVotes = e.clampedVotes
  activated : e'.totalActivatedStake = e.totalActivatedStake
  thresh : e'.threshActivatedStakeTime = e.threshActivatedStakeTime

/-- No share has changed. -/
theorem SharesOnly.refl (e : Election) : SharesOnly e e :=
  ⟨rfl, rfl, rfl, rfl, rfl, rfl⟩

/-- Changes of shares add up. -/
theorem SharesOnly.trans {e₁ e₂ e₃ : Election} (h : SharesOnly e₁ e₂)
    (h' : SharesOnly e₂ e₃) : SharesOnly e₁ e₃ :=
  ⟨h'.voters.trans h.voters, h'.producers.trans h.producers,
    h'.total.trans h.total, h'.clamped.trans h.clamped,
    h'.activated.trans h.activated, h'.thresh.trans h.thresh⟩

/-- A change of shares moves no votes. -/
theorem SameVotes.shares {e₁ e₂ e₃ : Election} (h : SameVotes e₁ e₂)
    (h' : SharesOnly e₂ e₃) : SameVotes e₁ e₃ where
  voters := h'.voters.trans h.voters
  votes := by rw [h'.producers, h.votes]
  rows p hp := by
    rw [h'.producers]
    exact h.rows p hp
  total := h'.total.trans h.total
  clamped := h'.clamped.trans h.clamped
  activated := h'.activated.trans h.activated
  thresh := h'.thresh.trans h.thresh

/-- The total share is updated apart from the votes. -/
theorem updateTotalVotepayShare_only (e : Election) (ct : ℤ) (x y : ℚ) :
    SharesOnly e (e.updateTotalVotepayShare ct x y) :=
  ⟨rfl, rfl, rfl, rfl, rfl, rfl⟩

/-- Votes may be counted anew between `e` and `e'`, and no stake is
activated. -/
structure SameStanding (e e' : Election) : Prop extends SameRecord e e' where
  activated : e'.totalActivatedStake = e.totalActivatedStake
  thresh : e'.threshActivatedStakeTime = e.threshActivatedStakeTime

/-- The standings agree with themselves. -/
theorem SameStanding.refl (e : Election) : SameStanding e e :=
  ⟨.refl _, rfl, rfl⟩

/-- Agreement of the standings carries on. -/
theorem SameStanding.trans (e₁ e₂ e₃ : Election) (h : SameStanding e₁ e₂)
    (h' : SameStanding e₂ e₃) : SameStanding e₁ e₃ :=
  ⟨h.toSameRecord.trans _ _ _ h'.toSameRecord,
    h'.activated.trans h.activated, h'.thresh.trans h.thresh⟩

/-- Rewriting the weights of a voter. -/
theorem SameStanding.voter {e : Election} {k : Name}
    {f : VoterInfo → VoterInfo} {voters : KeyedTable VoterInfo.owner}
    (h : modify e.voters k f = .ok voters)
    (hf : ∀ v, (f v).record = v.record) :
    SameStanding e { e with voters } :=
  ⟨.voter h hf, rfl, rfl⟩

/-! ## The loops -/

/-- Settling the vote pay of a producer stops nowhere. -/
theorem settleVotepay_succeeds (ct : ℤ) (l : VoteLoop) (prod : ProducerInfo)
    (a b : ℚ) : Succeeds (settleVotepay ct l prod a b) := by
  unfold settleVotepay
  split
  · exact succeeds_pure
  · next prod2 hprod2 =>
      have howner : prod2.owner = prod.owner := KeyedTable.key_of_find hprod2
      refine Succeeds.bind ?_ (fun r _ => ?_)
      · unfold updateProducerVotepayShare
        refine Succeeds.bind (succeeds_modify ?_ ?_) (fun _ _ => succeeds_pure)
        · rw [howner]
          exact Option.isSome_of_mem hprod2
        · exact fun _ => rfl
      · dsimp only
        split
        · exact succeeds_pure
        · split
          · exact succeeds_pure
          · exact succeeds_pure

/-- Settling the share of a producer never stops. -/
@[simp] theorem settleVotepay_avoids {stop : Abort} {ct : ℤ} {l : VoteLoop}
    {prod : ProducerInfo} {a b : ℚ} :
    Avoids stop (settleVotepay ct l prod a b) :=
  (settleVotepay_succeeds ct l prod a b).avoids stop

/-- The settlement of vote pay writes shares only. -/
theorem settleVotepay_ok {ct : ℤ} {l l' : VoteLoop}
    {prod : ProducerInfo} {x y : ℚ}
    (h : settleVotepay ct l prod x y = .ok l') :
    ∃ producers2, l'.election = { l.election with producers2 } := by
  unfold settleVotepay at h
  split at h
  · cases h
    exact ⟨_, rfl⟩
  · simp only [bind_eq_ok, updateProducerVotepayShare, modify_eq_ok,
      pure_eq_ok] at h
    obtain ⟨_, ⟨_, ⟨_, _, _, rfl⟩, rfl⟩, h⟩ := h
    dsimp only at h
    split at h
    · cases h
      exact ⟨_, rfl⟩
    · split at h
      · cases h
        exact ⟨_, rfl⟩
      · cases h
        exact ⟨_, rfl⟩

/-- The loops over producers stay within `SameStanding`. -/
def VoteLoop.Keeps (l l' : VoteLoop) : Prop :=
  Election.SameStanding l.election l'.election

/-- One round of either loop: the votes of a producer move, then its pay is
settled. -/
private theorem round_keeps {l l' : VoteLoop} {k : Name}
    {f : ProducerInfo → ProducerInfo}
    {producers : KeyedTable ProducerInfo.owner} {weight clamped : ℚ}
    {producers2 : KeyedTable ProducerInfo2.owner}
    (hmod : modify l.election.producers k f = .ok producers)
    (hf : ∀ p, (f p).record = p.record)
    (h : l'.election = { l.election with
      producers
      producers2
      totalProducerVoteWeight := weight
      clampedVotes := clamped }) : l.Keeps l' := by
  have hrecord := SameRecord.producer hmod hf
  unfold VoteLoop.Keeps
  rw [h]
  exact ⟨⟨hrecord.voters, hrecord.producers⟩, rfl, rfl⟩

/-- A vote applied to one producer keeps the records. -/
theorem applyDelta_record (ct : ℤ) (owner : Name) (voting : Bool)
    (l : VoteLoop) (pd : ProducerDelta) :
    Within VoteLoop.Keeps l (applyDelta ct owner voting l pd) := by
  intro l' h
  simp only [applyDelta, bind_eq_ok, deref_eq_ok, check_eq_ok,
    exists_const] at h
  obtain ⟨p, hp, _, _, producers, hmod, h⟩ := h
  obtain ⟨_, hsettled⟩ := settleVotepay_ok h
  exact round_keeps hmod (fun _ => rfl) hsettled

/-- So does a change of weight. -/
theorem applyWeight_record (ct : ℤ) (delta : ℚ) (l : VoteLoop) (p : Name) :
    Within VoteLoop.Keeps l (applyWeight ct delta l p) := by
  intro l' h
  simp only [applyWeight, bind_eq_ok, tableGet_eq_ok] at h
  obtain ⟨p, hp, producers, hmod, h⟩ := h
  obtain ⟨_, hsettled⟩ := settleVotepay_ok h
  exact round_keeps hmod (fun _ => rfl) hsettled

/-- A loop that does nothing keeps the records. -/
private theorem loop_refl (l : VoteLoop) : l.Keeps l :=
  SameStanding.refl _

/-- The steps of a loop add up. -/
private theorem loop_trans (l₁ l₂ l₃ : VoteLoop) (h : l₁.Keeps l₂)
    (h' : l₂.Keeps l₃) : l₁.Keeps l₃ := SameStanding.trans _ _ _ h h'

/-- The end of a loop keeps the records. -/
theorem VoteLoop.close_record (l : VoteLoop) (ct : ℤ) :
    SameStanding l.election (l.close ct) := ⟨⟨.refl _, .refl _⟩, rfl, rfl⟩

/-! ## The functions -/

/-- Passing a change on keeps the records if re-weighing does. -/
private theorem passWeight_record {ctx : Ctx}
    {propagate : Election → Name → Except Abort Election}
    (ih : ∀ e voter, Within SameStanding e (propagate e voter))
    {e e' : Election} {voter : VoterInfo} {delta : ℚ}
    (h : passWeight ctx propagate e voter delta = .ok e') :
    SameStanding e e' := by
  unfold passWeight at h
  split at h
  · split at h
    · simp only [bind_eq_ok, tableGet_eq_ok] at h
      obtain ⟨_, _, voters, hmod, h⟩ := h
      exact (SameStanding.voter hmod (fun _ => rfl)).trans _ _ _ (ih _ _ _ h)
    · simp only [bind_eq_ok, pure_eq_ok] at h
      obtain ⟨l, hl, rfl⟩ := h
      have hloop := within_foldlM loop_refl loop_trans
        (applyWeight_record _ _) _ _ l hl
      exact SameStanding.trans _ _ _ hloop (l.close_record _)
  · cases h
    exact SameStanding.refl _

/-- Re-weighing keeps the records, by induction on the depth. -/
theorem propagateWeightChange_record (env : Env) (ctx : Ctx) (fuel : ℕ)
    (e : Election) (voter : Name) :
    Within SameStanding e (propagateWeightChange env ctx fuel e voter) := by
  induction fuel generalizing e voter with
  | zero => exact within_error e _
  | succ fuel ih =>
      intro e' h
      simp only [propagateWeightChange, bind_eq_ok, deref_eq_ok,
        pure_eq_ok] at h
      obtain ⟨v, hv, e₁, h₁, voters, hmod, rfl⟩ := h
      have hpass := passWeight_record ih h₁
      exact hpass.trans _ _ _ (SameStanding.voter hmod (fun _ => rfl))

/-- Counting a stake towards the activation keeps the records. -/
theorem activateStake_record (ctx : Ctx) (e : Election) (voter : VoterInfo) :
    SameRecord e (e.activateStake ctx voter) := by
  unfold activateStake
  split
  · exact ⟨.refl _, .refl _⟩
  · exact SameRecord.refl _

/-- Taking the last vote off keeps the records. -/
theorem retractVote_record {env : Env} {ctx : Ctx} {e : Election}
    {voter : VoterInfo} {r : Election × List ProducerDelta}
    (h : e.retractVote env ctx voter = .ok r) : SameStanding e r.1 := by
  unfold retractVote at h
  split at h
  · split at h
    · simp only [bind_eq_ok, check_eq_ok, pure_eq_ok, exists_const] at h
      obtain ⟨_, voters, hmod, e₁, h₁, rfl⟩ := h
      exact SameStanding.trans _ _ _ (SameStanding.voter hmod (fun _ => rfl))
        (propagateWeightChange_record env ctx _ _ _ _ h₁)
    · cases h
      exact SameStanding.refl _
  · cases h
    exact SameStanding.refl _

/-- Casting a vote keeps the records. -/
theorem castVote_record {env : Env} {ctx : Ctx} {e : Election}
    {deltas : List ProducerDelta} {weight : ℚ} {proxy : Name}
    {producers : List Name} {voting : Bool}
    {r : Election × List ProducerDelta}
    (h : e.castVote env ctx deltas weight proxy producers voting = .ok r) :
    SameStanding e r.1 := by
  unfold castVote at h
  split at h
  · simp only [bind_eq_ok, orStop_eq_ok, check_eq_ok, exists_const] at h
    obtain ⟨_, _, _, h⟩ := h
    split at h
    · simp only [bind_eq_ok, pure_eq_ok] at h
      obtain ⟨voters, hmod, e₁, h₁, rfl⟩ := h
      exact SameStanding.trans _ _ _ (SameStanding.voter hmod (fun _ => rfl))
        (propagateWeightChange_record env ctx _ _ _ _ h₁)
    · cases h
      exact SameStanding.refl _
  · split at h
    · cases h
      exact SameStanding.refl _
    · cases h
      exact SameStanding.refl _

/-- The loop of `update_votes` over its deltas. -/
theorem applyDeltas_record {ct : ℤ} {owner : Name} {voting : Bool}
    {deltas : List ProducerDelta} {l l' : VoteLoop}
    (h : deltas.foldlM (applyDelta ct owner voting) l = .ok l') :
    SameStanding l.election l'.election :=
  within_foldlM loop_refl loop_trans (applyDelta_record ct owner voting) _ _
    l' h

/-- A vote activates the stake of the voter where it is the first, and counts
votes anew. -/
theorem updateVotes_standing {env : Env} {ctx : Ctx} {e e' : Election}
    {voterName proxy : Name} {producers : List Name} {voting : Bool}
    (h : e.updateVotes env ctx voterName proxy producers voting = .ok e') :
    ∃ voter, e.voters.find voterName = some voter ∧
      SameStanding (e.activateStake ctx voter) e' := by
  simp only [updateVotes, bind_eq_ok, orStop_eq_ok, check_eq_ok, pure_eq_ok,
    exists_const] at h
  obtain ⟨_, _, voter, hvoter, _, r₁, h₁, r₂, h₂, l, hl, voters, hmod, rfl⟩ := h
  have hretract := retractVote_record h₁
  have hcast := castVote_record h₂
  have hloop := applyDeltas_record hl
  have hmod' := SameStanding.voter hmod (fun _ => rfl)
  exact ⟨voter, hvoter, hretract.trans _ _ _ <| hcast.trans _ _ _ <|
    hloop.trans _ _ _ <| (l.close_record _).trans _ _ _ hmod'⟩

/-- **A vote moves no stake, no flag and no registration.** -/
theorem updateVotes_record {env : Env} {ctx : Ctx} {e e' : Election}
    {voterName proxy : Name} {producers : List Name} {voting : Bool}
    (h : e.updateVotes env ctx voterName proxy producers voting = .ok e') :
    SameRecord e e' := by
  obtain ⟨voter, _, hstanding⟩ := updateVotes_standing h
  exact (activateStake_record ctx e voter).trans _ _ _ hstanding.toSameRecord

end Election

end Inery
