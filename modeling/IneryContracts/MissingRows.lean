import IneryContracts.ProducerCollateral
import IneryContracts.SaleChecks
import IneryContracts.VoteLocking

/-!
# Reads of missing rows

A lookup that finds no row yields the end iterator of the table, through which
no field may be read.  Most lookups are followed by a check for the row.  In
four places a field is read first: `update_votes` reads the owner of a voted
account, `sellres` and `makeprod` read the resource row of the account, and
`buymembytes` reads the market.  Each of them meets a missing row under
conditions that can be read off the state and the arguments.
-/

namespace Inery

open GuardedStep LedgerVector LabelledRun MachineInt RankedLinks

/-- The last vote for a producer is taken off it by the next vote. -/
def VoterInfo.Counts (v : VoterInfo) (p : Name) : Prop :=
  0 < v.lastVoteWeight ∧ v.proxy = .none ∧ p ∈ v.producers

namespace Election

variable {env : Env} {ctx : Ctx} {e e' : Election} {k proxy : Name}
  {producers : List Name} {v : VoterInfo} {voting : Bool}
  {ds : List ProducerDelta}

/-! ## The loop over the voted accounts -/

/-- The loop of `update_votes` gets past an account: it is the voter itself,
registered, and active where that is asked for. -/
def Admits (e : Election) (owner : Name) (asked : Bool) (p : Name) : Prop :=
  p = owner ∧ ∃ row, e.producers.find p = some row ∧
    (asked = true → row.isActive = true)

/-- A round reads the row of its account first of all. -/
theorem applyDelta_reads {ct : ℤ} {owner : Name} {l : VoteLoop}
    {d : ProducerDelta} :
    applyDelta ct owner voting l d = .error .endIterator ↔
      l.election.producers.find d.producer = none := by
  have havoids : Avoids .endIterator (applyDelta ct owner voting l d) ↔
      l.election.producers.find d.producer ≠ none := by
    simp [applyDelta, modify, modifyM]
  exact not_iff_not.mp havoids

/-- What a round needs to go through. -/
theorem applyDelta_admits {ct : ℤ} {owner : Name} {l : VoteLoop}
    {d : ProducerDelta} : Succeeds (applyDelta ct owner voting l d) ↔
      l.election.Admits owner (voting && d.isNew) d.producer := by
  constructor
  · rintro ⟨l', h⟩
    simp only [applyDelta, bind_eq_ok, deref_eq_ok, check_eq_ok,
      exists_const] at h
    obtain ⟨row, hrow, howner, hactive, _⟩ := h
    refine ⟨(KeyedTable.key_of_find hrow).symm.trans howner.symm, row, hrow,
      fun hasked => ?_⟩
    rw [Bool.and_eq_true] at hasked
    by_contra hidle
    exact hactive ⟨hasked.1, hidle, hasked.2⟩
  · rintro ⟨howner, row, hrow, hactive⟩
    unfold applyDelta
    refine Succeeds.bind ⟨row, deref_eq_ok.mpr hrow⟩ (fun r hr => ?_)
    cases hrow.symm.trans (deref_eq_ok.mp hr)
    have hkey : row.owner = d.producer := KeyedTable.key_of_find hrow
    refine (succeeds_check.mpr (howner.symm.trans hkey.symm)).bind
      (fun _ _ => ?_)
    refine (succeeds_check.mpr ?_).bind (fun _ _ => ?_)
    · rintro ⟨hvoting, hidle, hnew⟩
      exact hidle (hactive (by simp [hvoting, hnew]))
    · exact Succeeds.bind
        (succeeds_modify (Option.isSome_of_mem hrow) (fun _ => rfl))
        (fun _ _ => settleVotepay_succeeds _ _ _ _ _)

/-- Being active is part of the record. -/
theorem sameBy_isActive {t t' : KeyedTable ProducerInfo.owner}
    (h : SameBy ProducerInfo.record t t') :
    SameBy ProducerInfo.isActive t t' :=
  h.map fun r r' hsame => show r.record.isActive = r'.record.isActive by
    rw [hsame]

theorem Admits.same (h : SameBy ProducerInfo.isActive e.producers
    e'.producers) {owner p : Name} {asked : Bool} :
    e'.Admits owner asked p ↔ e.Admits owner asked p := by
  unfold Admits
  refine and_congr_right fun _ => ?_
  constructor
  · rintro ⟨row', hrow', hactive⟩
    obtain ⟨row, hrow, hsame⟩ := h.find hrow'
    exact ⟨row, hrow, fun hasked => hsame.symm.trans (hactive hasked)⟩
  · rintro ⟨row, hrow, hactive⟩
    obtain ⟨row', hrow', hsame⟩ := h.symm.find hrow
    exact ⟨row', hrow', fun hasked => hsame.symm.trans (hactive hasked)⟩

theorem missing_same (h : SameBy ProducerInfo.isActive e.producers
    e'.producers) {p : Name} :
    e'.producers.find p = none ↔ e.producers.find p = none := by
  have hp := h p
  constructor
  · intro hnone
    rwa [hnone, Option.map_none, eq_comm, Option.map_eq_none_iff] at hp
  · intro hnone
    rwa [hnone, Option.map_none, Option.map_eq_none_iff] at hp

/-- The loop reads a missing row where all accounts before it are let by. -/
theorem applyDeltas_reads {ct : ℤ} {owner : Name} {l : VoteLoop}
    (hsorted : SortedDeltas ds) (hsame : SameBy ProducerInfo.isActive
      e.producers l.election.producers) :
    ds.foldlM (applyDelta ct owner voting) l = .error .endIterator ↔
      ∃ d ∈ ds, e.producers.find d.producer = none ∧
        ∀ c ∈ ds, c.producer < d.producer →
          e.Admits owner (voting && c.isNew) c.producer := by
  induction ds generalizing l with
  | nil => simp
  | cons d ds ih =>
      obtain ⟨hfirst, hrest⟩ := List.pairwise_cons.mp hsorted
      rw [List.foldlM_cons, bind_eq_error, applyDelta_reads,
        missing_same hsame]
      constructor
      · rintro (hnone | ⟨l₁, h₁, h⟩)
        · refine ⟨d, List.mem_cons_self, hnone, fun c hc hlt => ?_⟩
          rcases List.mem_cons.mp hc with rfl | hc
          · exact absurd rfl (Name.ne_of_lt hlt)
          · exact absurd rfl (Name.ne_of_lt (Name.lt_trans hlt (hfirst c hc)))
        · have hadmits := (Admits.same hsame).mp (applyDelta_admits.mp ⟨l₁, h₁⟩)
          have hkept := applyDelta_record ct owner voting l d l₁ h₁
          obtain ⟨m, hm, hnone, hbefore⟩ :=
            (ih hrest (hsame.trans (sameBy_isActive hkept.producers))).mp h
          refine ⟨m, List.mem_cons_of_mem _ hm, hnone, fun c hc hlt => ?_⟩
          rcases List.mem_cons.mp hc with rfl | hc
          · exact hadmits
          · exact hbefore c hc hlt
      · rintro ⟨m, hm, hnone, hbefore⟩
        rcases List.mem_cons.mp hm with rfl | hm
        · exact .inl hnone
        · have hadmits := hbefore d List.mem_cons_self (hfirst m hm)
          obtain ⟨l₁, h₁⟩ := applyDelta_admits.mpr
            ((Admits.same hsame).mpr hadmits)
          have hkept := applyDelta_record ct owner voting l d l₁ h₁
          have hsame₁ := hsame.trans (sameBy_isActive hkept.producers)
          refine .inr ⟨l₁, h₁, (ih hrest hsame₁).mpr
            ⟨m, hm, hnone, fun c hc => ?_⟩⟩
          exact hbefore c (List.mem_cons_of_mem _ hc)

/-! ## The entries of the loop -/

/-- Every account entered as new has a new entry. -/
theorem isNew_bump {p : Name} {x : ℚ} (hsorted : SortedDeltas ds)
    {d : ProducerDelta} (hd : d ∈ bumpDelta p x true ds) :
    d.producer = p ∧ d.isNew = true ∨ d.producer ≠ p ∧ d ∈ ds := by
  induction ds with
  | nil =>
      rw [bumpDelta, List.mem_singleton] at hd
      subst hd
      exact .inl ⟨rfl, rfl⟩
  | cons c ds ih =>
      obtain ⟨hfirst, hrest⟩ := List.pairwise_cons.mp hsorted
      unfold bumpDelta at hd
      split at hd
      · next hp =>
          rcases List.mem_cons.mp hd with rfl | hd
          · exact .inl ⟨rfl, rfl⟩
          · refine .inr ⟨?_, List.mem_cons_of_mem _ hd⟩
            rw [hp]
            exact (Name.ne_of_lt (hfirst d hd)).symm
      · next hne =>
          split at hd
          · next hlt =>
              rcases List.mem_cons.mp hd with rfl | hd
              · exact .inl ⟨rfl, rfl⟩
              · refine .inr ⟨fun heq => ?_, hd⟩
                rcases List.mem_cons.mp hd with rfl | hmem
                · exact hne heq.symm
                · exact absurd heq.symm
                    (Name.ne_of_lt (Name.lt_trans hlt (hfirst d hmem)))
          · rcases List.mem_cons.mp hd with rfl | hd
            · exact .inr ⟨fun heq => hne heq.symm, List.mem_cons_self⟩
            · exact (ih hrest hd).imp_right fun h =>
                ⟨h.1, List.mem_cons_of_mem _ h.2⟩

theorem isNew_bumpAll {x : ℚ} (hnodup : producers.Nodup)
    (hsorted : SortedDeltas ds) {d : ProducerDelta} (hd : d ∈
      producers.foldl (fun ds p => bumpDelta p x true ds) ds) :
    d.producer ∈ producers ∧ d.isNew = true ∨
      d.producer ∉ producers ∧ d ∈ ds := by
  induction producers generalizing ds with
  | nil => exact .inr ⟨List.not_mem_nil, hd⟩
  | cons p producers ih =>
      obtain ⟨hp, hnodup⟩ := List.nodup_cons.mp hnodup
      rcases ih hnodup hsorted.bump hd with ⟨hmem, hnew⟩ | ⟨hmem, hd⟩
      · exact .inl ⟨List.mem_cons_of_mem _ hmem, hnew⟩
      · rcases isNew_bump hsorted hd with ⟨heq, hnew⟩ | ⟨hne, hd⟩
        · exact .inl ⟨heq ▸ List.mem_cons_self, hnew⟩
        · exact .inr ⟨by simp [hne, hmem], hd⟩

/-- The entries that a list of producers leaves are marked the same way. -/
theorem mem_bump_flag {p : Name} {x : ℚ} {isNew : Bool} {d : ProducerDelta}
    (hd : d ∈ bumpDelta p x isNew ds) : d.isNew = isNew ∨ d ∈ ds := by
  induction ds with
  | nil =>
      rw [bumpDelta, List.mem_singleton] at hd
      exact .inl (by rw [hd])
  | cons c ds ih =>
      unfold bumpDelta at hd
      split at hd
      · rcases List.mem_cons.mp hd with rfl | hd
        · exact .inl rfl
        · exact .inr (List.mem_cons_of_mem _ hd)
      · split at hd
        · rcases List.mem_cons.mp hd with rfl | hd
          · exact .inl rfl
          · exact .inr hd
        · rcases List.mem_cons.mp hd with rfl | hd
          · exact .inr List.mem_cons_self
          · exact (ih hd).imp_right (List.mem_cons_of_mem _)

theorem mem_bumpAll_flag {x : ℚ} {isNew : Bool} {d : ProducerDelta}
    (hd : d ∈ producers.foldl (fun ds p => bumpDelta p x isNew ds) ds) :
    d.isNew = isNew ∨ d ∈ ds := by
  induction producers generalizing ds with
  | nil => exact .inr hd
  | cons p producers ih =>
      rcases ih hd with hnew | hd
      · exact .inl hnew
      · exact mem_bump_flag hd

/-- What the first half of a vote enters: the accounts of the last vote. -/
theorem retractVote_entries {r : Election × List ProducerDelta}
    (h : e.retractVote env ctx v = .ok r) :
    (∀ d ∈ r.2, v.Counts d.producer ∧ d.isNew = false) ∧
      ∀ p, v.Counts p → p ∈ r.2.map (·.producer) := by
  unfold retractVote at h
  split at h
  · next hlast =>
      split at h
      · next hproxy =>
          simp only [bind_eq_ok, pure_eq_ok] at h
          obtain ⟨_, _, _, _, _, _, rfl⟩ := h
          exact ⟨by simp, fun p hp => absurd hp.2.1 hproxy⟩
      · next hproxy =>
          cases h
          rw [not_not] at hproxy
          refine ⟨fun d hd => ⟨⟨hlast, hproxy, ?_⟩, ?_⟩, fun p hp => ?_⟩
          · exact (mem_bumpAll hd).resolve_right List.not_mem_nil
          · exact (mem_bumpAll_flag hd).resolve_right List.not_mem_nil
          · exact mem_producers_bumpAll _ false [] (.inl hp.2.2)
  · next hlast =>
      cases h
      exact ⟨by simp, fun p hp => absurd hp.1 hlast⟩

/-- The new vote is counted for a producer. -/
def Chosen (w : ℚ) (proxy : Name) (producers : List Name) (p : Name) : Prop :=
  proxy = .none ∧ 0 ≤ w ∧ p ∈ producers

/-- The accounts in `chosen` have been entered as new. -/
structure Entered (chosen : Name → Prop) (ds ds' : List ProducerDelta) :
    Prop where
  entry : ∀ d ∈ ds', chosen d.producer ∧ d.isNew = true ∨
    ¬ chosen d.producer ∧ d ∈ ds
  all : ∀ p, chosen p ∨ p ∈ ds.map (·.producer) → p ∈ ds'.map (·.producer)
  sorted : SortedDeltas ds'

theorem Entered.stay {chosen : Name → Prop} (hno : ∀ p, ¬ chosen p)
    (hsorted : SortedDeltas ds) : Entered chosen ds ds where
  entry _ hd := .inr ⟨hno _, hd⟩
  all p hp := hp.resolve_left (hno p)
  sorted := hsorted

/-- What the second half of a vote enters: the accounts of the new vote. -/
theorem castVote_entries {w : ℚ} {r : Election × List ProducerDelta}
    (hnodup : producers.Nodup) (hsorted : SortedDeltas ds)
    (h : e.castVote env ctx ds w proxy producers voting = .ok r) :
    Entered (Chosen w proxy producers) ds r.2 := by
  unfold castVote at h
  split at h
  · next hproxy =>
      have hno : ∀ p, ¬ Chosen w proxy producers p := fun _ hp => hproxy hp.1
      simp only [bind_eq_ok] at h
      obtain ⟨_, _, _, _, h⟩ := h
      split at h
      · simp only [bind_eq_ok, pure_eq_ok] at h
        obtain ⟨_, _, _, _, rfl⟩ := h
        exact .stay hno hsorted
      · cases h
        exact .stay hno hsorted
  · next hproxy =>
      rw [not_not] at hproxy
      split at h
      · next hw =>
          cases h
          refine ⟨fun d hd => ?_, fun p hp => ?_,
            (bumpAll true hnodup hsorted).1⟩
          · rcases isNew_bumpAll hnodup hsorted hd with ⟨hp, hnew⟩ | ⟨hp, hd⟩
            · exact .inl ⟨⟨hproxy, hw, hp⟩, hnew⟩
            · exact .inr ⟨fun hchosen => hp hchosen.2.2, hd⟩
          · exact mem_producers_bumpAll _ true ds (hp.imp_left fun h => h.2.2)
      · next hw =>
          cases h
          exact .stay (fun _ hp => hw hp.2.1) hsorted

/-! ## Votes -/

/-- Re-weighing an account with a row reads no missing row. -/
theorem propagateWeightChange_reads {fuel : ℕ} {x : Name}
    (hx : (e.voters.find x).isSome) :
    Avoids .endIterator (propagateWeightChange env ctx fuel e x) := by
  induction fuel generalizing e x with
  | zero => simp [propagateWeightChange]
  | succ fuel ih =>
      unfold propagateWeightChange
      simp only [avoids_bind, avoids_deref, modify_avoids foreign_endIterator,
        avoids_pure, implies_true, and_true]
      refine ⟨fun _ => Option.isSome_iff_ne_none.mp hx, fun v hv => ?_⟩
      unfold passWeight
      split
      · split
        · simp only [avoids_bind, avoids_tableGet,
            modify_avoids foreign_endIterator, true_and]
          refine ⟨by simp, fun _ hrow voters hmod => ih ?_⟩
          obtain ⟨r, hr, hk, rfl⟩ := modify_eq_ok.mp hmod
          exact isSome_put (Option.isSome_of_mem hr)
        · have hweights : ∀ l, Avoids .endIterator
              (v.producers.foldlM (applyWeight ctx.currentTimePoint
                (stake2vote env ctx v.staked - v.lastVoteWeight)) l) :=
            avoids_foldlM (fun l p => by simp [applyWeight]) _
          simp [hweights]
      · simp

/-- Counting a weight with a proxy reads no missing row. -/
theorem bookProxy_reads {x : Name} {f : VoterInfo → VoterInfo}
    {voters : KeyedTable VoterInfo.owner}
    (hmod : modify e.voters x f = .ok voters) : Avoids .endIterator
      (propagateWeightChange env ctx propagateFuel { e with voters } x) := by
  obtain ⟨r, hr, hk, rfl⟩ := modify_eq_ok.mp hmod
  exact propagateWeightChange_reads (isSome_put (Option.isSome_of_mem hr))

theorem retractVote_reads :
    Avoids .endIterator (e.retractVote env ctx v) := by
  unfold retractVote
  split
  · split
    · simp only [avoids_bind, avoids_check, modify_avoids foreign_endIterator,
        avoids_pure, implies_true, and_true, true_and]
      exact ⟨by simp, fun _ _ voters hmod => bookProxy_reads hmod⟩
    · simp
  · simp

theorem castVote_reads {w : ℚ} : Avoids .endIterator
    (e.castVote env ctx ds w proxy producers voting) := by
  unfold castVote
  split
  · simp only [avoids_bind, avoids_orStop, avoids_check]
    refine ⟨by simp, fun _ _ => ⟨by simp, fun _ _ => ?_⟩⟩
    split
    · simp only [avoids_bind, modify_avoids foreign_endIterator, avoids_pure,
        implies_true, and_true, true_and]
      exact fun voters hmod => bookProxy_reads hmod
    · simp
  · split
    · simp
    · simp

/-- A vote reads a missing row in its loop over the producers or nowhere. -/
theorem updateVotes_loop :
    e.updateVotes env ctx k proxy producers voting = .error .endIterator ↔
      ∃ v r₁ r₂, validateVote k proxy producers = .ok () ∧
        e.voters.find k = some v ∧ (proxy = .none ∨ v.isProxy = false) ∧
        (e.activateStake ctx v).retractVote env ctx v = .ok r₁ ∧
        r₁.1.castVote env ctx r₁.2 (newVoteWeight env ctx v) proxy producers
          voting = .ok r₂ ∧
        r₂.2.foldlM (applyDelta ctx.currentTimePoint v.owner voting)
          ⟨r₂.1, 0, 0⟩ = .error .endIterator := by
  have hvalid : Avoids .endIterator (validateVote k proxy producers) := by
    unfold validateVote
    split
    · simp
    · simp
  have hretract : ∀ v, Avoids .endIterator
      ((e.activateStake ctx v).retractVote env ctx v) :=
    fun _ => retractVote_reads
  have hcast : ∀ (e₁ : Election) ds w, Avoids .endIterator
    (e₁.castVote env ctx ds w proxy producers voting) :=
    fun _ _ _ => castVote_reads
  have hmodify : ∀ (t : KeyedTable VoterInfo.owner) f,
    Avoids .endIterator (modify t k f) :=
    fun _ _ => modify_avoids foreign_endIterator
  unfold Avoids at hvalid hretract hcast hmodify
  simp only [updateVotes, bind_eq_error, hvalid, orStop_eq_error,
    check_eq_error, hretract, hcast, hmodify, pure_eq_error, reduceCtorEq,
    and_false, false_or, exists_const, orStop_eq_ok, check_eq_ok]
  constructor
  · rintro ⟨_, hvalid, v, hv, hfree, r₁, h₁, r₂, h₂, h | ⟨_, _, _, hno⟩⟩
    · exact ⟨v, r₁, r₂, hvalid, hv, hfree, h₁, h₂, h⟩
    · exact hno.elim
  · rintro ⟨v, r₁, r₂, hvalid, hv, hfree, h₁, h₂, h⟩
    exact ⟨_, hvalid, v, hv, hfree, r₁, h₁, r₂, h₂, .inl h⟩

/-- A vote of `k` with the row `v` goes as far as to the account `p`, which is
voted for and has no row. -/
structure MissesProducer (env : Env) (ctx : Ctx) (e : Election) (k : Name)
    (proxy : Name) (producers : List Name) (voting : Bool) (v : VoterInfo)
    (p : Name) : Prop where
  voter : e.voters.find k = some v
  unproxied : proxy = .none
  few : producers.length ≤ 30
  ordered : producers.IsChain (· < ·)
  weighed : 0 ≤ newVoteWeight env ctx v
  chosen : p ∈ producers
  missing : e.producers.find p = none
  first : ∀ q, q < p → q ∈ producers ∨ v.Counts q →
    e.Admits k (voting && decide (q ∈ producers)) q

theorem MissesProducer.same {p : Name}
    (h : MissesProducer env ctx e k proxy producers voting v p)
    (hvoters : e'.voters = e.voters)
    (hsame : SameBy ProducerInfo.isActive e.producers e'.producers) :
    MissesProducer env ctx e' k proxy producers voting v p :=
  { h with
    voter := hvoters ▸ h.voter
    missing := (missing_same hsame).mpr h.missing
    first := fun q hq hmem => (Admits.same hsame).mpr (h.first q hq hmem) }

/-- The checks on the arguments of a vote for producers. -/
theorem validateVote_unproxied {u : Unit} :
    validateVote k .none producers = .ok u ↔
      producers.length ≤ 30 ∧ producers.IsChain (· < ·) := by
  simp [validateVote]

/-- The entries that are asked to be active are those of the new vote. -/
theorem Entered.asked {w : ℚ} {ds' : List ProducerDelta}
    (h : Entered (Chosen w .none producers) ds ds') (hw : 0 ≤ w)
    (hold : ∀ d ∈ ds, d.isNew = false) {d : ProducerDelta} (hd : d ∈ ds') :
    d.isNew = decide (d.producer ∈ producers) := by
  rcases h.entry d hd with ⟨⟨_, _, hp⟩, hnew⟩ | ⟨hno, hd⟩
  · rw [hnew, decide_eq_true hp]
  · rw [hold d hd, decide_eq_false fun hp => hno ⟨rfl, hw, hp⟩]

/-- **When a vote reads a missing row**, in a state in which all stored votes
are for producers with a row. -/
theorem updateVotes_reads (he : Orderly Listed e) :
    e.updateVotes env ctx k proxy producers voting = .error .endIterator ↔
      ∃ v p, MissesProducer env ctx e k proxy producers voting v p := by
  obtain ⟨rank, hrank⟩ := he.roster.ranked
  have hstart : ∀ v, Orderly Listed (e.activateStake ctx v) := fun v =>
    he.sameVoters Listed.lasting (activateStake_counts ctx e v).voters
      (fun _ => isSome_producers (activateStake_record ctx e v).producers)
  have hmid : ∀ {v r₁}, e.voters.find k = some v →
      (e.activateStake ctx v).retractVote env ctx v = .ok r₁ →
      SortedDeltas r₁.2 ∧ Orderly Listed r₁.1 ∧
        SameBy ProducerInfo.isActive e.producers r₁.1.producers := by
    intro v r₁ hv h₁
    have hvoters := (activateStake_counts ctx e v).voters
    have hhalf := retractVote_ok (hvoters ▸ hrank) (hvoters ▸ he.roster.fair)
      (hvoters ▸ hv) h₁
    exact ⟨hhalf.sorted, (hstart v).reweighed Listed.lasting hhalf.reweighed
      hhalf.fair (retractVote_record h₁).producers,
      sameBy_isActive ((activateStake_record ctx e v).producers.trans
        (retractVote_record h₁).producers)⟩
  rw [updateVotes_loop]
  constructor
  · rintro ⟨v, r₁, r₂, hvalid, hv, hfree, h₁, h₂, h⟩
    obtain ⟨hsorted, _, hsame⟩ := hmid hv h₁
    have hentered := castVote_entries (validateVote_ok hvalid).1 hsorted h₂
    obtain ⟨hold, hall⟩ := retractVote_entries h₁
    obtain ⟨d, hd, hnone, hbefore⟩ := (applyDeltas_reads hentered.sorted
      (hsame.trans (sameBy_isActive (castVote_record h₂).producers))).mp h
    rcases hentered.entry d hd with ⟨⟨rfl, hw, hp⟩, _⟩ | ⟨_, hd⟩
    · obtain ⟨hfew, hordered⟩ := validateVote_unproxied.mp hvalid
      refine ⟨v, d.producer, hv, rfl, hfew, hordered, hw, hp, hnone,
        fun q hq hmem => ?_⟩
      obtain ⟨c, hc, rfl⟩ := List.mem_map.mp
        (hentered.all q (hmem.imp (fun h => ⟨rfl, hw, h⟩) (hall q)))
      have hadmits := hbefore c hc hq
      rwa [hentered.asked hw (fun d hd => (hold d hd).2) hc,
        KeyedTable.key_of_find hv] at hadmits
    · -- the accounts of the last vote are registered
      have hlisted := he.votes k v hv d.producer (hold d hd).1.2.2
      rw [hnone] at hlisted
      exact absurd hlisted (by simp)
  · rintro ⟨v, p, h⟩
    obtain rfl := h.unproxied
    have hv := h.voter
    have hv₀ : (e.activateStake ctx v).voters.find k = some v :=
      (activateStake_counts ctx e v).voters ▸ hv
    obtain ⟨r₁, h₁⟩ : Succeeds ((e.activateStake ctx v).retractVote env ctx
      v) := retractVote_succeeds (hstart v) hv₀
    obtain ⟨hsorted, he₁, hsame⟩ := hmid hv h₁
    obtain ⟨r₂, h₂⟩ : Succeeds (r₁.1.castVote env ctx r₁.2
        (newVoteWeight env ctx v) .none producers voting) :=
      castVote_succeeds he₁ (fun hne => absurd rfl hne)
    have hentered := castVote_entries
      (h.ordered.pairwise.imp Name.ne_of_lt) hsorted h₂
    obtain ⟨hold, _⟩ := retractVote_entries h₁
    refine ⟨v, r₁, r₂, validateVote_unproxied.mpr ⟨h.few, h.ordered⟩, hv,
      .inl rfl, h₁, h₂, ?_⟩
    rw [applyDeltas_reads hentered.sorted
      (hsame.trans (sameBy_isActive (castVote_record h₂).producers))]
    obtain ⟨d, hd, rfl⟩ := List.mem_map.mp
      (hentered.all p (.inl ⟨rfl, h.weighed, h.chosen⟩))
    refine ⟨d, hd, h.missing, fun c hc hlt => ?_⟩
    rw [hentered.asked h.weighed (fun d hd => (hold d hd).2) hc,
      KeyedTable.key_of_find hv]
    refine h.first c.producer hlt ?_
    rcases hentered.entry c hc with ⟨hchosen, _⟩ | ⟨_, hc⟩
    · exact .inl hchosen.2.2
    · exact .inr (hold c hc).1

/-- A change of stake reads no missing row. -/
theorem updateVotingPower_reads {total : Asset} (he : Orderly Listed e) :
    Avoids .endIterator (e.updateVotingPower env ctx k total) := by
  simp only [updateVotingPower, avoids_bind,
    bookStake_avoids foreign_endIterator,
    checkVesting_avoids foreign_endIterator, avoids_check, reduceCtorEq,
    false_implies, true_and]
  intro r hr _ hpos _ _
  split
  · -- the vote that is cast again is for producers with a row
    obtain ⟨hbooked, heq⟩ := bookStake_booked hr (check_eq_ok.mp hpos)
    rw [heq]
    intro h
    have he₁ := he.booked Listed.lasting hbooked
    obtain ⟨v, p, hmisses⟩ := (updateVotes_reads he₁).mp h
    cases hbooked.find.symm.trans hmisses.voter
    have hlisted := he₁.votes k _ hbooked.find p hmisses.chosen
    rw [hmisses.missing] at hlisted
    exact absurd hlisted (by simp)
  · simp

end Election

namespace System

variable {env : Env} {ctx : Ctx} {s : SysState}

/-! ## Trades -/

theorem buy_avoids {stop : Abort} (hstop : Foreign stop) {m : Market}
    {quant : Asset} : Avoids stop (m.buy quant) := by
  simp [Market.buy, directConvert_avoids hstop, hstop, check_eq_foreign hstop]

theorem creditBytes_avoids {stop : Abort} (hstop : Foreign stop)
    {core : Symbol} {userres : KeyedTable UserResources.owner}
    {receiver : Name} {bytesOut : ℤ} :
    Avoids stop (creditBytes core userres receiver bytesOut) := by
  unfold creditBytes
  split
  · simp [hstop]
  · simp [hstop]

/-- The part of `sellres` that trades reads no missing row. -/
theorem sell_reads {m : Market} {bytes : ℤ} :
    Avoids .endIterator (m.sell bytes) := by
  simp [Market.sell, Market.noRow, directConvert_avoids foreign_endIterator]

/-- A purchase reads no missing row. -/
theorem buyresources_reads (he : Election.Orderly Election.Listed s.election)
    {payer receiver : Name} {quant : Asset} :
    Avoids .endIterator (buyresources env ctx s payer receiver quant) := by
  simp only [buyresources, avoids_bind, Ctx.avoids_requireAuth, avoids_check,
    foreign_endIterator, updateMemSupply_avoids, coreSymbol_avoids,
    buy_avoids, creditBytes_avoids, Asset.make_avoids, avoids_pure,
    reduceCtorEq, false_implies, true_and, implies_true, and_true]
  intro _ _ _ _ _ _ _ _ _ _ _ _ _ _ _ _
  exact delegatebw_avoids foreign_endIterator
    (fun _ _ => Election.updateVotingPower_reads he)

/-- What `sellres` reads before it knows the row is the resource row of the
seller. -/
theorem sellres_reads (he : Election.Orderly Election.Listed s.election)
    {account : Name} {bytes : ℤ} :
    sellres env ctx s account bytes = .error .endIterator ↔
      ctx.HasAuth account ∧
      (ctx.slot ≤ s.market.lastMemIncrease ∨ s.market.memmarket.isSome) ∧
      0 < bytes ∧ (s.election.producers.find account).isSome ∧
      s.userres.find account = none := by
  have hunstake : ∀ (s' : SysState) net cpu, s'.election = s.election →
      Avoids .endIterator (undelegatebw env ctx s' account account net cpu) :=
    fun s' net cpu heq => undelegatebw_avoids foreign_endIterator
      (fun _ _ => Election.updateVotingPower_reads (heq ▸ he))
  have havoids : Avoids .endIterator (sellres env ctx s account bytes) ↔
      ∀ _ : ctx.HasAuth account, ∀ m, s.market.updateMemSupply ctx = .ok m →
        0 < bytes → ∀ row, s.election.producers.find account = some row →
          s.userres.find account ≠ none := by
    simp only [sellres, avoids_bind, Ctx.avoids_requireAuth, avoids_check,
      avoids_tableGet, avoids_deref, foreign_endIterator,
      updateMemSupply_avoids, sell_reads, modify_avoids, coreSymbol_avoids,
      Asset.make_avoids, avoids_pure, reduceCtorEq, false_implies, true_and,
      implies_true, and_true, Ctx.requireAuth_eq_ok, check_eq_ok,
      tableGet_eq_ok]
    constructor
    · intro h hauth m hm hpos row hrow
      exact (h () hauth m hm () hpos row hrow).1 trivial
    · intro h _ hauth m hm _ hpos row hrow
      exact ⟨fun _ => h hauth m hm hpos row hrow,
        fun _ _ _ _ _ _ _ _ _ _ _ _ _ _ => hunstake _ _ _ rfl⟩
  rw [← Market.updateMemSupply_succeeds, ← not_iff_not]
  refine havoids.trans ?_
  constructor
  · rintro h ⟨hauth, ⟨m, hm⟩, hpos, hrow, hnone⟩
    obtain ⟨row, hrow⟩ := Option.isSome_iff_exists.mp hrow
    exact h hauth m hm hpos row hrow hnone
  · intro h hauth m hm hpos row hrow hnone
    exact h ⟨hauth, ⟨m, hm⟩, hpos, Option.isSome_of_mem hrow, hnone⟩

/-- What `buymembytes` reads before it knows the row is the market. -/
theorem buymembytes_reads (he : Election.Orderly Election.Listed s.election)
    {payer receiver : Name} {bytes : UInt32} :
    buymembytes env ctx s payer receiver bytes = .error .endIterator ↔
      s.market.memmarket = none := by
  have hbuy : ∀ quant, Avoids .endIterator
      (buyresources env ctx s payer receiver quant) :=
    fun _ => buyresources_reads he
  have hstake : ∀ quant s₁, buyresources env ctx s payer receiver quant =
      .ok s₁ → ∀ net cpu, Avoids .endIterator
        (delegatebw env ctx s₁ payer receiver net cpu false) := by
    intro quant s₁ h net cpu
    obtain ⟨ps, ⟨_, _, _, rfl⟩, hrun⟩ := buyresources_polls h
    exact delegatebw_avoids foreign_endIterator fun _ _ =>
      Election.updateVotingPower_reads
        (Election.polls_orderly hrun Election.Listed.lasting (by simp) he)
  have havoids : Avoids .endIterator
      (buymembytes env ctx s payer receiver bytes) ↔
      s.market.memmarket ≠ none := by
    simp only [buymembytes, avoids_bind, avoids_deref, foreign_endIterator,
      coreSymbol_avoids, Asset.make_avoids, hbuy, forall_const, true_and]
    exact and_iff_left fun _ _ _ _ _ _ s₁ h => hstake _ s₁ h _ _
  exact not_iff_not.mp havoids

/-! ## Becoming a producer -/

/-- `makeprod` with the read of the voter's resource row made visible: after
the same checks it stops where that row is missing, and then goes on as it
does. -/
def makeprodReading (env : Env) (ctx : Ctx) (t : TokenState) (s : SysState)
    (voterName proxy : Name) (producers : List Name) :
    Except Abort SysState := do
  ctx.requireAuth voterName
  let ownerBalance ← Token.getBalance t voterName inrCode
  check (ownerBalance.amount.tdiv 10000 ≥ 50000)
    "Your balance don't extend over 50 000 INR."
  let _ ← deref (s.userres.find voterName)
  makeprod env ctx t s voterName proxy producers

variable {t : TokenState} {k proxy : Name} {producers : List Name}

/-- What follows the checks of `makeprod` is reached with the authority and
the collateral. -/
theorem collateral_checked {x : Except Abort SysState} :
    (do ctx.requireAuth k
        let ownerBalance ← Token.getBalance t k inrCode
        check (ownerBalance.amount.tdiv 10000 ≥ 50000)
          "Your balance don't extend over 50 000 INR."
        x) = .error .endIterator ↔
      ctx.HasAuth k ∧ t.HasCollateral k ∧ x = .error .endIterator := by
  simp only [Token.getBalance, bind_eq_error, bind_eq_ok,
    Ctx.requireAuth_eq_error, Ctx.requireAuth_eq_ok, tableGet_eq_error,
    tableGet_eq_ok, check_eq_error, check_eq_ok, pure_eq_error, pure_eq_ok,
    reduceCtorEq, and_false, false_or, exists_const, exists_false]
  constructor
  · rintro ⟨hauth, _, ⟨inr, hinr, rfl⟩, henough, hx⟩
    exact ⟨hauth, ⟨inr, hinr, henough⟩, hx⟩
  · rintro ⟨hauth, ⟨inr, hinr, henough⟩, hx⟩
    exact ⟨hauth, _, ⟨inr, hinr, rfl⟩, henough, hx⟩

/-- `makeprod` itself reads a missing row in its vote or nowhere. -/
theorem makeprod_vote :
    makeprod env ctx t s k proxy producers = .error .endIterator ↔
      ctx.HasAuth k ∧ t.HasCollateral k ∧ ∃ row,
        s.election.producers.find k = some row ∧
        Election.updateVotes env ctx { s.election with
          producers := s.election.producers.put
            { row with isProducer := true } } k proxy producers true =
          .error .endIterator := by
  unfold makeprod
  rw [collateral_checked]
  refine and_congr_right fun _ => and_congr_right fun _ => ?_
  have hmodify : ∀ {R : Type} {key : R → Name} (t : KeyedTable key) f,
      modify t k f ≠ .error .endIterator :=
    fun _ _ => modify_avoids foreign_endIterator
  rw [bind_eq_error, or_iff_right (hmodify _ _)]
  constructor
  · rintro ⟨prods, hmod, h⟩
    obtain ⟨row, hrow, _, rfl⟩ := modify_eq_ok.mp hmod
    rcases bind_eq_error.mp h with h | ⟨election, _, h⟩
    · exact ⟨row, hrow, h⟩
    · -- marking the account as active reads no missing row
      dsimp only at h
      cases hmark : s.accountsact.find k with
      | none =>
          rw [hmark] at h
          cases h
      | some _ =>
          rw [hmark] at h
          rcases bind_eq_error.mp h with h | ⟨_, _, h⟩
          · exact absurd h (hmodify _ _)
          · cases h
  · rintro ⟨row, hrow, h⟩
    have hk : row.owner = k := KeyedTable.key_of_find hrow
    exact ⟨_, modify_eq_ok.mpr ⟨row, hrow, hk, rfl⟩, bind_eq_error.mpr (.inl h)⟩

/-- Where the resource row is there, nothing is different. -/
theorem makeprodReading_eq (hrow : (s.userres.find k).isSome) :
    makeprodReading env ctx t s k proxy producers =
      makeprod env ctx t s k proxy producers := by
  obtain ⟨res, hres⟩ := Option.isSome_iff_exists.mp hrow
  unfold makeprodReading makeprod
  cases ctx.requireAuth k with
  | error stop => rfl
  | ok _ =>
      cases Token.getBalance t k inrCode with
      | error stop => rfl
      | ok inr =>
          simp only [hres, deref, orStop, bind, Except.bind]
          cases check (inr.amount.tdiv 10000 ≥ 50000)
            "Your balance don't extend over 50 000 INR." with
          | error stop => rfl
          | ok _ => rfl

/-- What `makeprod` reads before it knows the row is the resource row of the
voter; and its vote may miss a producer. -/
theorem makeprod_reads (he : Election.Orderly Election.Listed s.election) :
    makeprodReading env ctx t s k proxy producers = .error .endIterator ↔
      ctx.HasAuth k ∧ t.HasCollateral k ∧ (s.userres.find k = none ∨
        (s.election.producers.find k).isSome ∧ ∃ v p,
          Election.MissesProducer env ctx s.election k proxy producers true
            v p) := by
  have hvote : ∀ row, s.election.producers.find k = some row →
      (Election.updateVotes env ctx { s.election with
        producers := s.election.producers.put
          { row with isProducer := true } } k proxy producers true =
        .error .endIterator ↔ ∃ v p, Election.MissesProducer env ctx
          s.election k proxy producers true v p) := by
    intro row hrow
    have hk : row.owner = k := KeyedTable.key_of_find hrow
    have hsame : SameBy ProducerInfo.isActive s.election.producers
        (s.election.producers.put { row with isProducer := true }) :=
      .put hrow hk rfl
    have he₁ : Election.Orderly Election.Listed { s.election with
        producers := s.election.producers.put
          { row with isProducer := true } } := by
      refine he.sameVoters Election.Listed.lasting rfl fun p hp => ?_
      rw [Option.isSome_iff_ne_none] at hp ⊢
      exact fun hnone => hp ((Election.missing_same hsame).mp hnone)
    refine (Election.updateVotes_reads he₁).trans ?_
    constructor
    · rintro ⟨v, p, h⟩
      exact ⟨v, p, h.same rfl hsame.symm⟩
    · rintro ⟨v, p, h⟩
      exact ⟨v, p, h.same rfl hsame⟩
  unfold makeprodReading
  rw [collateral_checked]
  refine and_congr_right fun hauth => and_congr_right fun hcoll => ?_
  rw [bind_eq_error, deref_eq_error]
  simp only [makeprod_vote, hauth, hcoll, true_and, and_true, deref_eq_ok]
  constructor
  · rintro (hnone | ⟨res, _, row, hrow, h⟩)
    · exact .inl hnone
    · exact .inr ⟨Option.isSome_of_mem hrow, (hvote row hrow).mp h⟩
  · rintro (hnone | ⟨hrow, h⟩)
    · exact .inl hnone
    · obtain ⟨row, hrow⟩ := Option.isSome_iff_exists.mp hrow
      cases hres : s.userres.find k with
      | none => exact .inl rfl
      | some res => exact .inr ⟨res, rfl, row, hrow, (hvote row hrow).mpr h⟩

end System

/-- What is asked of an event: a vote with a negative weight is for registered
producers. -/
def Event.ListedVote (env : Env) (e : Election) : Event → Prop
  | .system ctx (.makeprod voter _ producers) =>
      ∀ v, e.voters.find voter = some v →
        0 ≤ Election.newVoteWeight env ctx v ∨ e.Listed voter producers
  | _ => True

namespace Chain

/-- An event that succeeds and casts no vote with a negative weight for an
account without a row. -/
def ListedVoteStep (env : Env) (c : Chain) (e : Event) (c' : Chain) : Prop :=
  Step env c e c' ∧ e.ListedVote env c.sys.election

variable {env : Env} {c c' : Chain} {e : Event}

theorem step_listed (h : ListedVoteStep env c e c')
    (hc : Election.Orderly Election.Listed c.sys.election) :
    Election.Orderly Election.Listed c'.sys.election := by
  obtain ⟨hstep, hvote⟩ := h
  rcases step_votes hstep Election.Listed.lasting hc with
    ⟨_, hkept⟩ | ⟨ctx, k, x, l, e₁, rfl, hsame, he₁, hk, h⟩
  · exact hkept
  · refine Election.updateVotes_keeps he₁ Election.Listed.lasting (.inl rfl) ?_
      h
    obtain ⟨v, hv, _⟩ := Election.updateVotes_standing h
    rcases hvote v (hsame.voters ▸ hv) with hweight | hlisted
    · rcases Election.updateVotes_own hv hweight h with rfl | rfl
      · exact Election.Listed.lasting.nil e₁ k
      · intro p hp
        rw [List.mem_singleton.mp hp]
        exact hk
    · exact Election.Listed.lasting.keep hsame.rows hlisted

/-- **After such a run all stored votes are for producers with a row.** -/
theorem listed_run {es : List Event}
    (hrun : Run (ListedVoteStep env) (.genesis env) es c) :
    Election.Orderly Election.Listed c.sys.election :=
  hrun.invariant
    (I := fun c => Election.Orderly Election.Listed c.sys.election)
    (fun _ => True) (fun _ _ _ _ hc hstep => step_listed hstep hc)
    (fun _ _ => trivial) ⟨.empty, fun _ _ hv => by cases hv⟩

end Chain

/-! ## All readers -/

/-- A call of a part of the contract that looks rows up. -/
inductive RowReader
  | makeprod (voter proxy : Name) (producers : List Name)
  | updateVotes (voter proxy : Name) (producers : List Name) (voting : Bool)
  | sellres (account : Name) (bytes : ℤ)
  | buyresources (payer receiver : Name) (quant : Asset)
  | buymembytes (payer receiver : Name) (bytes : UInt32)
  | propagateWeightChange (voter : Name)

/-- The call reads a field of a row that is not there.
`propagate_weight_change` is called with a row of a voter. -/
def RowReader.ReadsMissing (env : Env) (ctx : Ctx) (c : Chain) :
    RowReader → Prop
  | .makeprod voter proxy producers =>
      System.makeprodReading env ctx c.token c.sys voter proxy producers =
        .error .endIterator
  | .updateVotes voter proxy producers voting =>
      c.sys.election.updateVotes env ctx voter proxy producers voting =
        .error .endIterator
  | .sellres account bytes =>
      System.sellres env ctx c.sys account bytes = .error .endIterator
  | .buyresources payer receiver quant =>
      System.buyresources env ctx c.sys payer receiver quant =
        .error .endIterator
  | .buymembytes payer receiver bytes =>
      System.buymembytes env ctx c.sys payer receiver bytes =
        .error .endIterator
  | .propagateWeightChange voter =>
      (c.sys.election.voters.find voter).isSome ∧
        Election.propagateWeightChange env ctx Election.propagateFuel
          c.sys.election voter = .error .endIterator

/-- The row is missing, and no check before the read stops the call. -/
def RowReader.MissesRow (env : Env) (ctx : Ctx) (c : Chain) :
    RowReader → Prop
  | .makeprod voter proxy producers =>
      ctx.HasAuth voter ∧ c.token.HasCollateral voter ∧
      (c.sys.userres.find voter = none ∨
        (c.sys.election.producers.find voter).isSome ∧ ∃ v p,
          Election.MissesProducer env ctx c.sys.election voter proxy producers
            true v p)
  | .updateVotes voter proxy producers voting => ∃ v p,
      Election.MissesProducer env ctx c.sys.election voter proxy producers
        voting v p
  | .sellres account bytes =>
      ctx.HasAuth account ∧
      (ctx.slot ≤ c.sys.market.lastMemIncrease ∨
        c.sys.market.memmarket.isSome) ∧
      0 < bytes ∧ (c.sys.election.producers.find account).isSome ∧
      c.sys.userres.find account = none
  | .buymembytes _ _ _ => c.sys.market.memmarket = none
  | .buyresources _ _ _ | .propagateWeightChange _ => False

/-- **Which calls read a missing row.**  After every run in which each vote
with a negative weight is for registered producers, a call reads a field of a
row that is not there if and only if the row that it reads before any check is
missing and the checks it makes earlier let it pass: the resource row for
`makeprod` and `sellres`, the market for `buymembytes`, and for a vote the
first account, by name, that is not the voter itself as a producer.
`buyresources` and `propagate_weight_change` never read a missing row. -/
theorem missing_row_reads {env : Env} {es : List Event} {c : Chain}
    (hrun : Run (Chain.ListedVoteStep env) (.genesis env) es c) (ctx : Ctx)
    (call : RowReader) :
    call.ReadsMissing env ctx c ↔ call.MissesRow env ctx c := by
  have hlisted := Chain.listed_run hrun
  cases call with
  | makeprod voter proxy producers => exact System.makeprod_reads hlisted
  | updateVotes voter proxy producers voting =>
      exact Election.updateVotes_reads hlisted
  | sellres account bytes => exact System.sellres_reads hlisted
  | buyresources payer receiver quant =>
      exact iff_of_false (System.buyresources_reads hlisted) id
  | buymembytes payer receiver bytes => exact System.buymembytes_reads hlisted
  | propagateWeightChange voter =>
      exact iff_of_false
        (fun h => Election.propagateWeightChange_reads h.1 h.2) id

/-- Alice is registered and has staked for bob, not for herself. -/
def lookingEvents : List Event :=
  [.system (.signedBy alice 2) (.regproducer alice {} "" 0),
    .system (.signedBy alice 2)
      (.delegatebw alice bob ⟨100, inrSymbol⟩ ⟨100, inrSymbol⟩ false)]

/-- Alice, who has no resource row, offers a byte for sale; bob, who has one,
could offer it, but is no producer. -/
theorem missing_row_reads_sample : ∃ c : Chain,
    c.sys.userres.find alice = none ∧
    System.sellres sampleEnv (.signedBy alice 3) c.sys alice 1 =
      .error .endIterator ∧
    System.sellres sampleEnv (.signedBy bob 3) c.sys bob 1 ≠
      .error .endIterator := by
  have hsample : SampleRun lookingEvents (fun _ c =>
      (c.sys.election.producers.find alice).isSome = true ∧
      c.sys.userres.find alice = none ∧
      (c.sys.userres.find bob).isSome = true ∧
      c.sys.market.memmarket.isSome = true) := by
    decide +kernel
  obtain ⟨c₀, c₁, c, hbefore, hinit, hafter, hprod, hnone, hbob, hmarket⟩ :=
    hsample.runs
  have hlisted : ∀ c e c', e ∈ openingEvents ++
        [.system (.signedBy systemAccount 1) (.init 0 inrSymbol)] ++
        lookingEvents →
      Chain.Step sampleEnv c e c' → Chain.ListedVoteStep sampleEnv c e c' := by
    intro c e c' he hstep
    refine ⟨hstep, ?_⟩
    simp only [openingEvents, lookingEvents, List.cons_append, List.nil_append,
      List.mem_cons, List.not_mem_nil, or_false] at he
    rcases he with rfl | rfl | rfl | rfl | rfl | rfl | rfl
    all_goals trivial
  have hrun := ((hbefore.append (.single hinit)).append hafter).mono _
    hlisted (fun _ he => he)
  refine ⟨c, hnone, (missing_row_reads hrun (.signedBy alice 3)
    (.sellres alice 1)).mpr ⟨by decide, .inr hmarket, by decide, hprod, hnone⟩,
    fun h => ?_⟩
  obtain ⟨_, _, _, _, hmissing⟩ := (missing_row_reads hrun (.signedBy bob 3)
    (.sellres bob 1)).mp h
  rw [hmissing] at hbob
  cases hbob

/-- A vote for an account that is not registered, a sale without a resource
row, and a price for bytes before there is a market: all three read a row that
is missing. -/
theorem rows_missing : (∃ c : Chain, Chain.Reachable sampleEnv c ∧
      (c.sys.election.voters.find alice).isSome = true ∧
      c.sys.election.producers.find bob = none ∧
      c.sys.election.updateVotes sampleEnv (.signedBy alice 3) alice .none
        [bob] true = .error .endIterator ∧
      c.sys.userres.find alice = none ∧
      System.sellres sampleEnv (.signedBy alice 3) c.sys alice 1 =
        .error .endIterator) ∧
    System.buymembytes sampleEnv (.signedBy alice 1)
      (SysState.genesis sampleEnv) alice alice 1 = .error .endIterator := by
  have hsample : SampleRun lookingEvents (fun _ c =>
      (c.sys.election.voters.find alice).isSome = true ∧
      c.sys.election.producers.find bob = none ∧
      (c.sys.election.updateVotes sampleEnv (.signedBy alice 3) alice .none
        [bob] true).map (fun _ => ()) = .error .endIterator ∧
      c.sys.userres.find alice = none ∧
      (System.sellres sampleEnv (.signedBy alice 3) c.sys alice 1).map
        (fun _ => ()) = .error .endIterator) := by
    decide +kernel
  obtain ⟨_, c, hreach, hvoter, hbob, hvote, hres, hsale⟩ := hsample.reachable
  exact ⟨⟨c, hreach, hvoter, hbob, map_eq_error.mp hvote, hres,
    map_eq_error.mp hsale⟩, rfl⟩

end Inery
