import IneryContracts.ProxyTermination

/-!
# Stored votes do not stop a change of stake

A change of stake casts the stored vote again.  That always succeeds while
every stored vote is for a proxy, for nobody, or for the voter itself: what the
vote leads to has a row, and nothing else can go wrong.  A vote for somebody
else is only stored when the weight of the voter is negative, because the
producers of a vote are not looked at then.
-/

namespace Inery

open GuardedStep LedgerVector LabelledRun MachineInt RankedLinks

namespace Election

/-- Every stored vote for producers is a vote of a producer for itself. -/
def OwnVotes (e : Election) : Prop :=
  ∀ y v, e.voters.find y = some v → v.producers = [] ∨
    v.producers = [y] ∧ (e.producers.find y).isSome

/-- What casting a stored vote again relies on. -/
structure Secure (e : Election) : Prop where
  roster : Roster e.voters
  own : e.OwnVotes

/-- A condition on the producers of a vote that holds of no producers at all,
and lasts while producers keep their rows. -/
structure Lasting (Q : Election → Name → List Name → Prop) : Prop where
  nil : ∀ e y, Q e y []
  keep : ∀ {e e' : Election} {y : Name} {l : List Name},
    (∀ p, (e.producers.find p).isSome → (e'.producers.find p).isSome) →
    Q e y l → Q e' y l

/-- The voters are in order, and the producers of every stored vote satisfy
`Q`. -/
structure Orderly (Q : Election → Name → List Name → Prop) (e : Election) :
    Prop where
  roster : Roster e.voters
  votes : ∀ y v, e.voters.find y = some v → Q e y v.producers

/-- The producers of a vote have rows. -/
def Listed (e : Election) (_ : Name) (l : List Name) : Prop :=
  ∀ p ∈ l, (e.producers.find p).isSome

/-- A vote for nobody, or of a producer for itself. -/
def Own (e : Election) (y : Name) (l : List Name) : Prop :=
  l = [] ∨ l = [y] ∧ (e.producers.find y).isSome

/-- Being listed lasts. -/
theorem Listed.lasting : Lasting Listed where
  nil _ _ _ hp := absurd hp List.not_mem_nil
  keep hkept h p hp := hkept p (h p hp)

/-- Voting for oneself lasts. -/
theorem Own.lasting : Lasting Own where
  nil _ _ := .inl rfl
  keep hkept h := h.imp_right fun hone => ⟨hone.1, hkept _ hone.2⟩

/-- Who votes for itself is listed. -/
theorem Own.listed {e : Election} {y : Name} {l : List Name}
    (h : Own e y l) : Listed e y l := by
  intro p hp
  rcases h with rfl | ⟨rfl, hy⟩
  · exact absurd hp List.not_mem_nil
  · rw [List.mem_singleton.mp hp]
    exact hy

/-- A secure election is one in which all votes are for oneself. -/
theorem secure_iff {e : Election} : Secure e ↔ Orderly Own e :=
  ⟨fun h => ⟨h.roster, h.own⟩, fun h => ⟨h.roster, h.votes⟩⟩

/-- In a secure election all that are voted for are listed. -/
theorem Secure.listed {e : Election} (h : Secure e) : Orderly Listed e :=
  ⟨h.roster, fun y v hv => Own.listed (h.own y v hv)⟩

variable {env : Env} {ctx : Ctx} {rank : Name → ℕ} {e e₁ e' : Election}
  {k x proxy : Name} {producers : List Name} {v : VoterInfo} {w : ℚ}
  {voting : Bool} {Q : Election → Name → List Name → Prop}

/-- Producers that keep their rows. -/
theorem isSome_producers (h : SameBy ProducerInfo.record e.producers
    e'.producers) {p : Name} (hp : (e.producers.find p).isSome) :
    (e'.producers.find p).isSome := by
  obtain ⟨row, hrow⟩ := Option.isSome_iff_exists.mp hp
  obtain ⟨row', hrow', _⟩ := h.symm.find hrow
  exact Option.isSome_of_mem hrow'

/-- Stored votes that have been made before, while producers keep their
rows. -/
theorem Orderly.keep (h : Orderly Q e) (hQ : Lasting Q)
    (hroster : Roster e'.voters)
    (hproducers : ∀ p, (e.producers.find p).isSome →
      (e'.producers.find p).isSome)
    (hvoters : ∀ y v', e'.voters.find y = some v' → v'.producers = [] ∨
      ∃ v, e.voters.find y = some v ∧ v'.producers = v.producers) :
    Orderly Q e' := by
  refine ⟨hroster, fun y v' hv' => ?_⟩
  rcases hvoters y v' hv' with hnil | ⟨v, hv, hsame⟩
  · rw [hnil]
    exact hQ.nil e' y
  · rw [hsame]
    exact hQ.keep hproducers (h.votes y v hv)

/-- Re-weighing keeps the votes in order. -/
theorem Orderly.reweighed (h : Orderly Q e) (hQ : Lasting Q)
    (hre : Reweighed env ctx (fun _ => True) e.voters e'.voters)
    (hfair : AllFair e'.voters) (hproducers : SameBy ProducerInfo.record
      e.producers e'.producers) : Orderly Q e' := by
  refine h.keep hQ (h.roster.reweighed hre hfair)
    (fun _ => isSome_producers hproducers) (fun y v' hv' => ?_)
  obtain ⟨v, hv, hsame⟩ := hre.origin trivial hv'
  exact .inr ⟨v, hv, VoterInfo.choice_producers hsame⟩

/-- Only producers have changed, and none has gone. -/
theorem Orderly.sameVoters (h : Orderly Q e) (hQ : Lasting Q)
    (hvoters : e'.voters = e.voters)
    (hproducers : ∀ p, (e.producers.find p).isSome →
      (e'.producers.find p).isSome) : Orderly Q e' := by
  refine h.keep hQ (hvoters ▸ h.roster) hproducers (fun y v' hv' => ?_)
  rw [hvoters] at hv'
  exact .inr ⟨v', hv', rfl⟩

/-- Re-weighing keeps the votes orderly. -/
theorem Orderly.propagated {fuel : ℕ} (h : Orderly Q e) (hQ : Lasting Q)
    (hprop : propagateWeightChange env ctx fuel e x = .ok e') :
    Orderly Q e' := by
  obtain ⟨rank, hrank⟩ := h.roster.ranked
  have hstep := propagateWeightChange_ok hrank h.roster.fair hprop
  exact h.reweighed hQ hstep.reweighed hstep.fair
    (propagateWeightChange_record env ctx fuel e x e' hprop).producers

/-- Writing a row that keeps its producers. -/
theorem Orderly.put (h : Orderly Q e) (hQ : Lasting Q) {r : VoterInfo}
    (hk : r.owner = k) (hroster : Roster (e.voters.put r))
    (hproducers : r.producers = [] ∨
      ∃ v, e.voters.find k = some v ∧ r.producers = v.producers) :
    Orderly Q { e with voters := e.voters.put r } := by
  refine h.keep hQ hroster (fun _ => id) (fun y v' hv' => ?_)
  dsimp only at hv'
  rw [KeyedTable.find_put_of_key hk] at hv'
  split at hv'
  · next hy =>
      cases hv'
      rw [hy]
      exact hproducers
  · exact .inr ⟨v', hv', rfl⟩

/-- Booking a stake keeps the votes orderly. -/
theorem Orderly.booked (h : Orderly Q e) (hQ : Lasting Q) {amount : ℤ}
    (hv : Booked e k amount v) :
    Orderly Q { e with voters := e.voters.put v } := by
  refine h.put hQ hv.owner (hv.roster h.roster) ?_
  rcases hv.row with ⟨_, rfl⟩ | ⟨old, hold, rfl⟩
  · exact .inl rfl
  · exact .inr ⟨old, hold, rfl⟩

/-- Booking a weight with a proxy keeps the votes in order. -/
theorem Orderly.modified (h : Orderly Q e) (hQ : Lasting Q)
    {f : VoterInfo → VoterInfo} {voters : KeyedTable VoterInfo.owner}
    (hf : ∀ v, f v = { v with proxiedVoteWeight := v.proxiedVoteWeight + w })
    (hmod : modify e.voters x f = .ok voters) :
    Orderly Q { e with voters } := by
  have hroster := modify_roster h.roster hf hmod
  obtain ⟨r, hr, hk, rfl⟩ := modify_eq_ok.mp hmod
  refine h.put hQ hk hroster (.inr ⟨r, hr, ?_⟩)
  rw [hf]

/-! ## Loops over producers -/

/-- A change of weight is applied to a producer with a row. -/
theorem applyWeight_succeeds {ct : ℤ} {delta : ℚ} {l : VoteLoop} {p : Name}
    (hp : (l.election.producers.find p).isSome) :
    Succeeds (applyWeight ct delta l p) := by
  unfold applyWeight
  refine (succeeds_tableGet.mpr hp).bind (fun _ _ => ?_)
  exact Succeeds.bind (succeeds_modify hp (fun _ => rfl))
    (fun _ _ => settleVotepay_succeeds _ _ _ _ _)

/-- It is applied to producers that all have rows. -/
theorem applyWeights_succeeds {ct : ℤ} {delta : ℚ} {l : VoteLoop}
    (hproducers : ∀ p ∈ producers, (l.election.producers.find p).isSome) :
    Succeeds (producers.foldlM (applyWeight ct delta) l) := by
  refine succeeds_foldlM (I := fun l : VoteLoop =>
    ∀ p ∈ producers, (l.election.producers.find p).isSome)
    (fun l hl p hp => ⟨applyWeight_succeeds (hl p hp), fun l' h q hq => ?_⟩)
    hproducers
  exact isSome_producers (applyWeight_record ct delta l p l' h).producers
    (hl q hq)

/-- Taking a vote off its producers and giving it to them again succeeds where
the voter itself is the only one. -/
theorem applyDelta_succeeds {ct : ℤ} {l : VoteLoop} {d : ProducerDelta}
    (hd : d.producer = k) (hk : (l.election.producers.find k).isSome) :
    Succeeds (applyDelta ct k false l d) := by
  unfold applyDelta
  rw [hd]
  refine (succeeds_deref.mpr hk).bind (fun row hrow => ?_)
  have howner : row.owner = k := KeyedTable.key_of_find (deref_eq_ok.mp hrow)
  refine (succeeds_check.mpr howner.symm).bind (fun _ _ => ?_)
  refine (succeeds_check.mpr (by simp)).bind (fun _ _ => ?_)
  exact Succeeds.bind (succeeds_modify hk (fun _ => rfl))
    (fun _ _ => settleVotepay_succeeds _ _ _ _ _)

/-- A change of votes is applied where it is for the voter itself. -/
theorem applyDeltas_succeeds {ct : ℤ} {l : VoteLoop}
    {ds : List ProducerDelta} (hds : ∀ d ∈ ds, d.producer = k)
    (hk : ds ≠ [] → (l.election.producers.find k).isSome) :
    Succeeds (ds.foldlM (applyDelta ct k false) l) := by
  by_cases hnil : ds = []
  · rw [hnil]
    exact succeeds_pure
  · refine succeeds_foldlM
      (I := fun l => (l.election.producers.find k).isSome)
      (fun l hl d hd => ⟨applyDelta_succeeds (hds d hd) hl, fun l' h => ?_⟩)
      (hk hnil)
    exact isSome_producers (applyDelta_record ct k false l d l' h).producers hl

/-! ## Re-weighing -/

/-- **Re-weighing succeeds while all votes are for producers with a row.** -/
theorem propagateWeightChange_succeeds {fuel : ℕ} (he : Orderly Listed e)
    (hrank : Ranks rank (ProxyLink e.voters)) (hfuel : rank x < fuel)
    (hx : (e.voters.find x).isSome) :
    Succeeds (propagateWeightChange env ctx fuel e x) := by
  induction fuel generalizing e x with
  | zero => omega
  | succ fuel ih =>
      unfold propagateWeightChange
      refine (succeeds_deref.mpr hx).bind (fun v hv => ?_)
      rw [deref_eq_ok] at hv
      have hstore : ∀ e₁ : Election, (e₁.voters.find x).isSome →
          Succeeds (do
            let voters ← modify e₁.voters x (fun u =>
              { u with lastVoteWeight := stake2vote env ctx v.staked })
            return ({ e₁ with voters } : Election)) := by
        intro e₁ hrow
        exact Succeeds.bind (succeeds_modify hrow (fun _ => rfl))
          (fun _ _ => succeeds_pure)
      refine Succeeds.bind ?_ (fun e₁ hpassed => hstore e₁ ?_)
      · unfold passWeight
        split
        · split
          · next hproxy =>
              have hrow := he.roster.rows x v.proxy ⟨v, hv, rfl, hproxy⟩
              refine (succeeds_tableGet.mpr hrow).bind (fun _ _ => ?_)
              refine Succeeds.bind (succeeds_modify hrow (fun _ => rfl))
                (fun voters hmod => ?_)
              have hlt := hrank x v.proxy ⟨v, hv, rfl, hproxy⟩
              refine ih (he.modified Listed.lasting (fun _ => rfl) hmod)
                (hrank.mono fun _ _ => links_booked hmod fun _ => rfl)
                (by omega) ?_
              obtain ⟨r, _, hk, rfl⟩ := modify_eq_ok.mp hmod
              exact isSome_put hrow
          · refine Succeeds.bind ?_ (fun _ _ => succeeds_pure)
            exact applyWeights_succeeds (he.votes x v hv)
        · exact succeeds_ok
      · rcases passWeight_cases hpassed with ⟨_, rfl⟩ |
          ⟨_, hproxy, _, hbook, hrest⟩ | ⟨_, _, l, hl, rfl⟩
        · exact hx
        · have hlt := hrank x v.proxy ⟨v, hv, rfl, hproxy⟩
          have hprop := Propagated.booked hrank he.roster.fair (fun _ => rfl)
            hbook (fun hrank' hfair' =>
              propagateWeightChange_ok hrank' hfair' hrest)
          rw [hprop.apart x hlt]
          exact hx
        · have hvoters : l.election.voters = e.voters :=
            (applyWeights_counts (he.roster.fair x v hv).nodup hl).voters
          exact hvoters ▸ hx

variable (env ctx) in
/-- Counting a weight with a proxy succeeds. -/
theorem bookProxy_succeeds {f : VoterInfo → VoterInfo} (he : Orderly Listed e)
    (hx : (e.voters.find x).isSome)
    (hf : ∀ v, f v = { v with proxiedVoteWeight := v.proxiedVoteWeight + w }) :
    Succeeds (do
      let voters ← modify e.voters x f
      propagateWeightChange env ctx propagateFuel { e with voters } x) := by
  refine (succeeds_modify hx (fun r => by rw [hf])).bind
    (fun voters hmod => ?_)
  have hlisted := he.modified Listed.lasting hf hmod
  obtain ⟨rank, hrank, _, hlt⟩ := hlisted.roster.bounded
  refine propagateWeightChange_succeeds hlisted hrank (hlt x) ?_
  obtain ⟨r, _, _, rfl⟩ := modify_eq_ok.mp hmod
  exact isSome_put hx

/-! ## Casting a stored vote again -/

/-- What the two halves of a vote leave for the loop over the producers. -/
structure Ready (e : Election) (k : Name) (v : VoterInfo)
    (ds : List ProducerDelta) : Prop extends Secure e where
  row : e.voters.find k = some v
  sorted : SortedDeltas ds
  deltas : ∀ d ∈ ds, d.producer ∈ v.producers

/-- Taking the last vote off leaves entries for its producers alone. -/
theorem retractVote_ready {r : Election × List ProducerDelta}
    (he : Secure e) (hv : e.voters.find k = some v)
    (h : e.retractVote env ctx v = .ok r) : Ready r.1 k v r.2 := by
  obtain ⟨rank, hrank⟩ := he.roster.ranked
  have hhalf := retractVote_ok hrank he.roster.fair hv h
  have he₁ := (secure_iff.mp he).reweighed Own.lasting hhalf.reweighed
    hhalf.fair (retractVote_record h).producers
  refine ⟨secure_iff.mpr he₁, hhalf.row.trans hv, hhalf.sorted, ?_⟩
  unfold retractVote at h
  split at h
  · split at h
    · simp only [bind_eq_ok, pure_eq_ok] at h
      obtain ⟨_, _, _, _, _, _, rfl⟩ := h
      exact fun d hd => absurd hd List.not_mem_nil
    · cases h
      exact fun d hd => (mem_bumpAll hd).resolve_right List.not_mem_nil
  · cases h
    exact fun d hd => absurd hd List.not_mem_nil

/-- So does casting the same vote again. -/
theorem castVote_ready {ds : List ProducerDelta}
    {r : Election × List ProducerDelta} (he : Ready e k v ds)
    (h : e.castVote env ctx ds w v.proxy v.producers false = .ok r) :
    Ready r.1 k v r.2 := by
  obtain ⟨rank, hrank⟩ := he.roster.ranked
  have hcast : e.castVote env ctx ds w v.proxy v.producers false =
    .ok (r.1, r.2) := h
  have hhalf := castVote_ok hrank he.roster.fair
    (fun hproxy => hrank k _ ⟨v, he.row, rfl, hproxy⟩)
    (he.roster.fair k v he.row).nodup he.sorted hcast
  have he₁ := (secure_iff.mp he.toSecure).reweighed Own.lasting
    hhalf.reweighed hhalf.fair (castVote_record h).producers
  refine ⟨secure_iff.mpr he₁, hhalf.row.trans he.row, hhalf.sorted, ?_⟩
  unfold castVote at h
  split at h
  · simp only [bind_eq_ok] at h
    obtain ⟨_, _, _, _, h⟩ := h
    split at h
    · simp only [bind_eq_ok, pure_eq_ok] at h
      obtain ⟨_, _, _, _, rfl⟩ := h
      exact he.deltas
    · cases h
      exact he.deltas
  · split at h
    · cases h
      exact fun d hd => (mem_bumpAll hd).elim id (he.deltas d)
    · cases h
      exact he.deltas

/-- The last vote can be taken off. -/
theorem retractVote_succeeds (he : Orderly Listed e)
    (hv : e.voters.find k = some v) : Succeeds (e.retractVote env ctx v) := by
  unfold retractVote
  split
  · split
    · next hproxy =>
        have hrow := he.roster.rows k v.proxy ⟨v, hv, rfl, hproxy⟩
        refine (succeeds_check.mpr hrow).bind (fun _ _ => ?_)
        refine Succeeds.bind (succeeds_modify hrow (fun _ => rfl))
          (fun voters hmod => ?_)
        obtain ⟨e₁, he₁⟩ := bookProxy_succeeds env ctx he hrow
          (w := -v.lastVoteWeight)
          (f := fun vp => { vp with
            proxiedVoteWeight := vp.proxiedVoteWeight - v.lastVoteWeight })
          (fun _ => by rw [sub_eq_add_neg])
        obtain ⟨voters', hmod', hprop⟩ := bind_eq_ok.mp he₁
        cases hmod.symm.trans hmod'
        exact Succeeds.bind ⟨e₁, hprop⟩ (fun _ _ => succeeds_pure)
    · exact succeeds_pure
  · exact succeeds_pure

/-- A vote can be cast if its proxy has a row and is one. -/
theorem castVote_succeeds {ds : List ProducerDelta} (he : Orderly Listed e)
    (hproxy : proxy ≠ .none → ∃ p, e.voters.find proxy = some p ∧
      (voting = true → p.isProxy = true)) :
    Succeeds (e.castVote env ctx ds w proxy producers voting) := by
  unfold castVote
  split
  · next hne =>
      obtain ⟨p, hp, hflag⟩ := hproxy hne
      have hrow : (e.voters.find proxy).isSome := Option.isSome_of_mem hp
      refine Succeeds.bind ⟨p, orStop_eq_ok.mpr hp⟩ (fun u hu => ?_)
      cases hp.symm.trans (orStop_eq_ok.mp hu)
      refine (succeeds_check.mpr hflag).bind (fun _ _ => ?_)
      split
      · refine Succeeds.bind (succeeds_modify hrow (fun _ => rfl))
          (fun voters hmod => ?_)
        obtain ⟨e₁, he₁⟩ := bookProxy_succeeds env ctx he hrow
          (w := w) (f := fun vp => { vp with
            proxiedVoteWeight := vp.proxiedVoteWeight + w }) (fun _ => rfl)
        obtain ⟨voters', hmod', hprop⟩ := bind_eq_ok.mp he₁
        cases hmod.symm.trans hmod'
        exact Succeeds.bind ⟨e₁, hprop⟩ (fun _ _ => succeeds_pure)
      · exact succeeds_pure
  · split
    · exact succeeds_pure
    · exact succeeds_pure

/-- **Casting a stored vote again succeeds.** -/
theorem updateVotes_succeeds (he : Secure e)
    (hv : e.voters.find k = some v) :
    Succeeds (e.updateVotes env ctx k v.proxy v.producers false) := by
  have hrow := he.roster.fair k v hv
  have hown := he.own k v hv
  obtain ⟨rank, hrank⟩ := he.roster.ranked
  have hvalid : Succeeds (validateVote k v.proxy v.producers) := by
    unfold validateVote
    split
    · next hproxy =>
        refine (succeeds_check.mpr ?_).bind (fun _ _ => succeeds_check.mpr ?_)
        · rw [hrow.alone hproxy, List.length_nil]
        · intro hk
          have hlt := hrank k v.proxy ⟨v, hv, rfl, hproxy⟩
          rw [← hk] at hlt
          exact hlt.false
    · refine (succeeds_check.mpr ?_).bind (fun _ _ => succeeds_check.mpr ?_)
      · rcases hown with hnil | ⟨hone, _⟩
        · simp [hnil]
        · simp [hone]
      · rcases hown with hnil | ⟨hone, _⟩
        · simp [hnil]
        · simp [hone]
  unfold updateVotes
  refine hvalid.bind (fun _ _ => ?_)
  refine Succeeds.bind ⟨v, orStop_eq_ok.mpr hv⟩ (fun u hu => ?_)
  rw [orStop_eq_ok] at hu
  obtain rfl : v = u := Option.some.inj (hv.symm.trans hu)
  have hfree : v.proxy = .none ∨ v.isProxy = false := by
    cases hflag : v.isProxy with
    | false => exact .inr rfl
    | true => exact .inl (hrow.proxy hflag)
  refine (succeeds_check.mpr hfree).bind (fun _ _ => ?_)
  have hvoters := (activateStake_counts ctx e v).voters
  have he₀ : Secure (e.activateStake ctx v) := secure_iff.mpr
    ((secure_iff.mp he).sameVoters Own.lasting hvoters
      (fun _ => isSome_producers (activateStake_record ctx e v).producers))
  have hv₀ : (e.activateStake ctx v).voters.find k = some v := hvoters ▸ hv
  refine (retractVote_succeeds he₀.listed hv₀).bind (fun r₁ h₁ => ?_)
  have hready₁ := retractVote_ready he₀ hv₀ h₁
  refine (castVote_succeeds hready₁.listed (fun hproxy => ?_)).bind
    (fun r₂ h₂ => ?_)
  · have hlink : ProxyLink r₁.1.voters k v.proxy :=
      ⟨v, hready₁.row, rfl, hproxy⟩
    obtain ⟨p, hp⟩ :=
      Option.isSome_iff_exists.mp (hready₁.roster.rows _ _ hlink)
    exact ⟨p, hp, by simp⟩
  have hready₂ := castVote_ready hready₁ h₂
  have howner : v.owner = k := KeyedTable.key_of_find hv
  rw [howner]
  refine Succeeds.bind (applyDeltas_succeeds (fun d hd => ?_) (fun hne => ?_))
    (fun l hl => ?_)
  · have hmem := hready₂.deltas d hd
    rcases hown with hnil | ⟨hone, _⟩
    · rw [hnil] at hmem
      exact absurd hmem List.not_mem_nil
    · rw [hone] at hmem
      exact List.mem_singleton.mp hmem
  · rcases hready₂.own k v hready₂.row with hnil | ⟨_, hk⟩
    · obtain ⟨d, hd⟩ := List.exists_mem_of_ne_nil _ hne
      have hmem := hready₂.deltas d hd
      rw [hnil] at hmem
      exact absurd hmem List.not_mem_nil
    · exact hk
  · refine Succeeds.bind (succeeds_modify ?_ ?_) (fun _ _ => succeeds_pure)
    · have hloop : (l.close ctx.currentTimePoint).voters = r₂.1.voters :=
        applyDeltas_voters hl
      rw [hloop, hready₂.row]
      rfl
    · exact fun _ => rfl

/-- **A change of stake succeeds** where the stake does not come out negative
and the vesting allows it. -/
theorem updateVotingPower_succeeds {total : Asset} (he : Secure e)
    (hv : Booked e k total.amount v)
    (hvesting : checkVesting ctx k v.staked = .ok ()) :
    Succeeds (e.updateVotingPower env ctx k total) := by
  have hbook : e.bookStake k total =
      .ok ({ e with voters := e.voters.put v }, v) := by
    unfold bookStake
    rcases hv.row with ⟨hnone, rfl⟩ | ⟨old, hold, rfl⟩
    · simp only [hnone]
      simp [emplace, hnone, check, require, bind, Except.bind, pure,
        Except.pure]
    · have hmod : modify e.voters k (fun _ => { old with
          staked := i64 (old.staked + total.amount) }) =
          .ok (e.voters.put { old with
            staked := i64 (old.staked + total.amount) }) :=
        modify_eq_ok.mpr ⟨old, hold, hv.owner, rfl⟩
      simp only [hold, hmod]
      rfl
  unfold updateVotingPower
  rw [hbook]
  refine Succeeds.bind succeeds_ok (fun r hr => ?_)
  cases hr
  refine (succeeds_check.mpr hv.staked).bind (fun _ _ => ?_)
  refine Succeeds.bind ⟨(), hvesting⟩ (fun _ _ => ?_)
  split
  · exact updateVotes_succeeds
      (secure_iff.mpr ((secure_iff.mp he).booked Own.lasting hv)) hv.find
  · exact succeeds_pure

end Election

end Inery
