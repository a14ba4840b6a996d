import IneryContracts.BeforeActivation
import IneryContracts.MissingRows

/-!
# Whose vote goes through

A vote, and the change of stake that casts a stored vote again, depend on the
voter's own rows, the proxy it names, and nothing that others have stored.  A
stored vote that counts for somebody else stops both from then on.
-/

namespace Inery

open GuardedStep LedgerVector LabelledRun MachineInt RankedLinks

namespace Election

variable {env : Env} {ctx : Ctx} {e e' : Election} {k x proxy : Name}
  {producers : List Name} {v : VoterInfo} {voting : Bool}
  {ds : List ProducerDelta}

/-! ## The loop over the producers -/

/-- The loop goes through where it is let past every account. -/
theorem applyDeltas_admits {ct : ℤ} {owner : Name} {l : VoteLoop}
    (hsame : SameBy ProducerInfo.isActive e.producers l.election.producers) :
    Succeeds (ds.foldlM (applyDelta ct owner voting) l) ↔
      ∀ d ∈ ds, e.Admits owner (voting && d.isNew) d.producer := by
  induction ds generalizing l with
  | nil => simp
  | cons d ds ih =>
      have hnext : ∀ l', applyDelta ct owner voting l d = .ok l' →
          SameBy ProducerInfo.isActive e.producers l'.election.producers := by
        intro l' h
        have hrecord := applyDelta_record ct owner voting l d l' h
        exact hsame.trans (sameBy_isActive hrecord.producers)
      have hround : Succeeds (applyDelta ct owner voting l d) ↔
          l.election.Admits owner (voting && d.isNew) d.producer :=
        applyDelta_admits
      rw [List.foldlM_cons, List.forall_mem_cons, ← Admits.same hsame, ← hround]
      constructor
      · rintro ⟨l₂, h⟩
        obtain ⟨l₁, h₁, h₂⟩ := bind_eq_ok.mp h
        exact ⟨⟨l₁, h₁⟩, (ih (hnext l₁ h₁)).mp ⟨l₂, h₂⟩⟩
      · rintro ⟨hfirst, hrest⟩
        exact hfirst.bind (fun l₁ h₁ => (ih (hnext l₁ h₁)).mpr hrest)

/-! ## Votes -/

/-- What a vote asks for, of its arguments, of the voter's row and of the
proxy.  All accounts it takes votes from or gives votes to are the voter
itself, which is active if it is voted for anew. -/
structure Accepts (env : Env) (ctx : Ctx) (e : Election) (k proxy : Name)
    (producers : List Name) (voting : Bool) (v : VoterInfo) : Prop where
  voter : e.voters.find k = some v
  followed : proxy ≠ .none → producers = [] ∧ k ≠ proxy ∧ v.isProxy = false ∧
    ∃ p, e.voters.find proxy = some p ∧ (voting = true → p.isProxy = true)
  listed : proxy = .none → producers.length ≤ 30 ∧ producers.IsChain (· < ·)
  former : ∀ p, v.Counts p → p = k
  chosen : ∀ p, Chosen (newVoteWeight env ctx v) proxy producers p →
    e.Admits k voting p

theorem Accepts.same
    (h : Accepts env ctx e k proxy producers voting v)
    (hvoters : e'.voters = e.voters)
    (hsame : SameBy ProducerInfo.isActive e.producers e'.producers) :
    Accepts env ctx e' k proxy producers voting v :=
  { h with
    voter := hvoters ▸ h.voter
    followed := hvoters ▸ h.followed
    chosen := fun p hp => (Admits.same hsame).mpr (h.chosen p hp) }

/-- The checks on the arguments. -/
theorem validateVote_succeeds : Succeeds (validateVote k proxy producers) ↔
    (proxy ≠ .none → producers = [] ∧ k ≠ proxy) ∧
    (proxy = .none → producers.length ≤ 30 ∧ producers.IsChain (· < ·)) := by
  by_cases hproxy : proxy = .none
  · subst hproxy
    refine (exists_congr fun _ => validateVote_unproxied).trans ?_
    simp
  · constructor
    · rintro ⟨_, h⟩
      exact ⟨(validateVote_ok h).2, fun hnone => absurd hnone hproxy⟩
    · rintro ⟨h, _⟩
      obtain ⟨rfl, hself⟩ := h hproxy
      unfold validateVote
      rw [if_pos hproxy]
      exact (succeeds_check.mpr rfl).bind (fun _ _ => succeeds_check.mpr hself)

/-- What taking the last vote back leaves for the new one. -/
structure Retracted (env : Env) (ctx : Ctx) (e : Election) (k : Name)
    (v : VoterInfo) (r : Election × List ProducerDelta) : Prop where
  orderly : Orderly Listed r.1
  row : r.1.voters.find k = e.voters.find k
  sorted : SortedDeltas r.2
  active : SameBy ProducerInfo.isActive e.producers r.1.producers
  flags : SameBy VoterInfo.isProxy e.voters r.1.voters
  entry : ∀ d ∈ r.2, v.Counts d.producer ∧ d.isNew = false
  all : ∀ p, v.Counts p → p ∈ r.2.map (·.producer)

theorem retractVote_retracted (he : Orderly Listed e)
    (hv : e.voters.find k = some v) {r : Election × List ProducerDelta}
    (h : (e.activateStake ctx v).retractVote env ctx v = .ok r) :
    Retracted env ctx e k v r := by
  have hvoters := (activateStake_counts ctx e v).voters
  have hrecord := (activateStake_record ctx e v).trans _ _ _
    (retractVote_record h).toSameRecord
  have hstart : Orderly Listed (e.activateStake ctx v) :=
    he.sameVoters Listed.lasting hvoters
      (fun _ => isSome_producers (activateStake_record ctx e v).producers)
  obtain ⟨rank, hrank⟩ := hstart.roster.ranked
  have hhalf := retractVote_ok hrank hstart.roster.fair (hvoters ▸ hv) h
  obtain ⟨hentry, hall⟩ := retractVote_entries h
  refine ⟨hstart.reweighed Listed.lasting hhalf.reweighed hhalf.fair
    (retractVote_record h).producers, ?_, hhalf.sorted,
    sameBy_isActive hrecord.producers, ?_, hentry, hall⟩
  · rw [hhalf.row, hvoters]
  · exact hrecord.voters.map fun u u' hsame =>
      show u.record.isProxy = u'.record.isProxy by rw [hsame]

/-- The proxy that a new vote names is looked up after the last vote has been
taken back, which changes no flag. -/
theorem Retracted.named {r : Election × List ProducerDelta}
    (h : Retracted env ctx e k v r) :
    (∃ p, r.1.voters.find x = some p ∧ (voting = true → p.isProxy = true)) ↔
      ∃ p, e.voters.find x = some p ∧ (voting = true → p.isProxy = true) := by
  constructor
  · rintro ⟨p', hp', hflag⟩
    obtain ⟨p, hp, hsame⟩ := h.flags.find hp'
    exact ⟨p, hp, fun hasked => hsame.symm.trans (hflag hasked)⟩
  · rintro ⟨p, hp, hflag⟩
    obtain ⟨p', hp', hsame⟩ := h.flags.symm.find hp
    exact ⟨p', hp', fun hasked => hsame.symm.trans (hflag hasked)⟩

/-- Giving the new vote needs the proxy that it names. -/
theorem castVote_proxy {w : ℚ} {r : Election × List ProducerDelta}
    (h : e.castVote env ctx ds w proxy producers voting = .ok r)
    (hproxy : proxy ≠ .none) :
    ∃ p, e.voters.find proxy = some p ∧ (voting = true → p.isProxy = true) := by
  unfold castVote at h
  rw [if_pos hproxy] at h
  simp only [bind_eq_ok, orStop_eq_ok, check_eq_ok, exists_const] at h
  obtain ⟨p, hp, hflag, _⟩ := h
  exact ⟨p, hp, hflag⟩

/-- What the two halves of a vote leave for the loop. -/
theorem Retracted.admits {r₁ r₂ : Election × List ProducerDelta}
    (h : Retracted env ctx e k v r₁) (he : Orderly Listed e)
    (hv : e.voters.find k = some v) (hnodup : producers.Nodup)
    (hcast : r₁.1.castVote env ctx r₁.2 (newVoteWeight env ctx v) proxy
      producers voting = .ok r₂) :
    Succeeds (r₂.2.foldlM (applyDelta ctx.currentTimePoint k voting)
        ⟨r₂.1, 0, 0⟩) ↔
      (∀ p, v.Counts p → p = k) ∧
      ∀ p, Chosen (newVoteWeight env ctx v) proxy producers p →
        e.Admits k voting p := by
  have hentered := castVote_entries hnodup h.sorted hcast
  rw [applyDeltas_admits (h.active.trans
    (sameBy_isActive (castVote_record hcast).producers))]
  constructor
  · intro hall
    have hentry : ∀ p, Chosen (newVoteWeight env ctx v) proxy producers p ∨
        v.Counts p → ∃ d ∈ r₂.2, d.producer = p := fun p hp =>
      List.mem_map.mp (hentered.all p (hp.imp_right (h.all p)))
    refine ⟨fun p hp => ?_, fun p hp => ?_⟩
    · obtain ⟨d, hd, rfl⟩ := hentry p (.inr hp)
      exact (hall d hd).1
    · obtain ⟨d, hd, rfl⟩ := hentry p (.inl hp)
      rcases hentered.entry d hd with ⟨_, hnew⟩ | ⟨hno, _⟩
      · have hadmits := hall d hd
        rwa [hnew, Bool.and_true] at hadmits
      · exact absurd hp hno
  · rintro ⟨hformer, hchosen⟩ d hd
    rcases hentered.entry d hd with ⟨hp, hnew⟩ | ⟨_, hd⟩
    · rw [hnew, Bool.and_true]
      exact hchosen _ hp
    · obtain ⟨hcounts, hold⟩ := h.entry d hd
      rw [hold, Bool.and_false]
      obtain ⟨row, hrow⟩ := Option.isSome_iff_exists.mp
        (he.votes k v hv _ hcounts.2.2)
      exact ⟨hformer _ hcounts, row, hrow,
        fun hno => absurd hno Bool.false_ne_true⟩

/-- **When a vote goes through**, in a state in which all stored votes are for
producers with a row. -/
theorem updateVotes_accepts (he : Orderly Listed e) :
    Succeeds (e.updateVotes env ctx k proxy producers voting) ↔
      ∃ v, Accepts env ctx e k proxy producers voting v := by
  constructor
  · rintro ⟨e', h⟩
    simp only [updateVotes, bind_eq_ok, orStop_eq_ok, check_eq_ok, pure_eq_ok,
      exists_const] at h
    obtain ⟨u, hvalid, v, hv, hfree, r₁, h₁, r₂, h₂, l, hl, _⟩ := h
    have hretracted := retractVote_retracted he hv h₁
    obtain ⟨hfollowed, hlisted⟩ := validateVote_succeeds.mp ⟨u, hvalid⟩
    have howner : v.owner = k := KeyedTable.key_of_find hv
    rw [howner] at hl
    obtain ⟨hformer, hchosen⟩ := (hretracted.admits he hv
      (validateVote_ok hvalid).1 h₂).mp ⟨l, hl⟩
    refine ⟨v, hv, fun hproxy => ?_, hlisted, hformer, hchosen⟩
    obtain ⟨hnil, hself⟩ := hfollowed hproxy
    exact ⟨hnil, hself, hfree.resolve_left hproxy,
      hretracted.named.mp (castVote_proxy h₂ hproxy)⟩
  · rintro ⟨v, h⟩
    have hv := h.voter
    have hvoters := (activateStake_counts ctx e v).voters
    have hstart : Orderly Listed (e.activateStake ctx v) :=
      he.sameVoters Listed.lasting hvoters
        (fun _ => isSome_producers (activateStake_record ctx e v).producers)
    have hvalid : Succeeds (validateVote k proxy producers) :=
      validateVote_succeeds.mpr ⟨fun hproxy =>
        ⟨(h.followed hproxy).1, (h.followed hproxy).2.1⟩, h.listed⟩
    have hfree : proxy = .none ∨ v.isProxy = false := by
      by_cases hproxy : proxy = .none
      · exact .inl hproxy
      · exact .inr (h.followed hproxy).2.2.1
    unfold updateVotes
    refine hvalid.bind (fun u hu => ?_)
    refine Succeeds.bind ⟨v, orStop_eq_ok.mpr hv⟩ (fun w hw => ?_)
    cases hv.symm.trans (orStop_eq_ok.mp hw)
    refine (succeeds_check.mpr hfree).bind (fun _ _ => ?_)
    refine (retractVote_succeeds hstart (hvoters ▸ hv)).bind (fun r₁ h₁ => ?_)
    have hretracted := retractVote_retracted he hv h₁
    refine (castVote_succeeds hretracted.orderly (fun hproxy =>
      hretracted.named.mpr (h.followed hproxy).2.2.2)).bind (fun r₂ h₂ => ?_)
    have howner : v.owner = k := KeyedTable.key_of_find hv
    rw [howner]
    refine Succeeds.bind ((hretracted.admits he hv (validateVote_ok hu).1
      h₂).mpr ⟨h.former, h.chosen⟩) (fun l hl => ?_)
    have hloop : (l.close ctx.currentTimePoint).voters = r₂.1.voters :=
      applyDeltas_voters hl
    obtain ⟨u, hrow, _⟩ := (castVote_record h₂).voters.symm.find
      (hretracted.row.trans hv)
    refine Succeeds.bind (succeeds_modify ?_ (fun _ => rfl))
      (fun _ _ => succeeds_pure)
    rw [hloop, hrow]
    rfl

/-! ## Changes of stake and of standing -/

/-- The producers of a vote have rows and pass the checks on their list. -/
def Valid (e : Election) (y : Name) (l : List Name) : Prop :=
  Listed e y l ∧ l.length ≤ 30 ∧ l.IsChain (· < ·)

theorem Valid.lasting : Lasting Valid where
  nil e y := ⟨Listed.lasting.nil e y, Nat.zero_le 30, .nil⟩
  keep hkept h := ⟨Listed.lasting.keep hkept h.1, h.2⟩

theorem Orderly.listed (he : Orderly Valid e) : Orderly Listed e :=
  ⟨he.roster, fun y v hv => (he.votes y v hv).1⟩

/-- A stored vote can be cast again unless it is for somebody else and counts,
either up to now or from now on. -/
theorem recast_accepts (he : Orderly Valid e) (hv : e.voters.find k = some v) :
    Succeeds (e.updateVotes env ctx k v.proxy v.producers false) ↔
      (v.proxy = .none → 0 < v.lastVoteWeight ∨ 0 ≤ newVoteWeight env ctx v →
        ∀ p ∈ v.producers, p = k) := by
  have hfair := he.roster.fair k v hv
  obtain ⟨hlisted, hchecked⟩ := he.votes k v hv
  rw [updateVotes_accepts he.listed]
  constructor
  · rintro ⟨w, h⟩ hproxy hweight p hp
    cases hv.symm.trans h.voter
    rcases hweight with hlast | hweight
    · exact h.former p ⟨hlast, hproxy, hp⟩
    · exact (h.chosen p ⟨hproxy, hweight, hp⟩).1
  · intro hown
    refine ⟨v, hv, fun hproxy => ?_, fun _ => hchecked, fun p hp => ?_,
      fun p hp => ?_⟩
    · have hlink : ProxyLink e.voters k v.proxy := ⟨v, hv, rfl, hproxy⟩
      obtain ⟨rank, hrank⟩ := he.roster.ranked
      obtain ⟨row, hrow⟩ :=
        Option.isSome_iff_exists.mp (he.roster.rows _ _ hlink)
      refine ⟨hfair.alone hproxy, fun hself => ?_, ?_, row, hrow,
        fun hno => absurd hno Bool.false_ne_true⟩
      · have hlt := hrank k v.proxy hlink
        rw [← hself] at hlt
        exact hlt.false
      · rw [← Bool.not_eq_true]
        exact fun hflag => hproxy (hfair.proxy hflag)
    · exact hown hp.2.1 (.inl hp.1) p hp.2.2
    · obtain ⟨row, hrow⟩ := Option.isSome_iff_exists.mp (hlisted p hp.2.2)
      exact ⟨hown hp.1 (.inr hp.2.1) p hp.2.2, row, hrow,
        fun hno => absurd hno Bool.false_ne_true⟩

/-- Booking a stake stores the row. -/
theorem Booked.stores {total : Asset} (hv : Booked e k total.amount v) :
    e.bookStake k total = .ok ({ e with voters := e.voters.put v }, v) := by
  unfold bookStake
  rcases hv.row with ⟨hnone, rfl⟩ | ⟨old, hold, rfl⟩
  · have hput : emplace e.voters { owner := k, staked := total.amount } =
        .ok (e.voters.put { owner := k, staked := total.amount }) :=
      emplace_eq_ok.mpr ⟨hnone, rfl⟩
    simp only [hnone, hput]
    rfl
  · have hmod : modify e.voters k (fun _ => { old with
        staked := i64 (old.staked + total.amount) }) =
        .ok (e.voters.put { old with
          staked := i64 (old.staked + total.amount) }) :=
      modify_eq_ok.mpr ⟨old, hold, hv.owner, rfl⟩
    simp only [hold, hmod]
    rfl

/-- **When a change of stake goes through**, where the stake does not come out
negative and the vesting allows it. -/
theorem updateVotingPower_accepts {total : Asset} (he : Orderly Valid e)
    (hv : Booked e k total.amount v)
    (hvesting : checkVesting ctx k v.staked = .ok ()) :
    Succeeds (e.updateVotingPower env ctx k total) ↔
      (v.proxy = .none → 0 < v.lastVoteWeight ∨ 0 ≤ newVoteWeight env ctx v →
        ∀ p ∈ v.producers, p = k) := by
  have hrecast : Succeeds (({ e with voters := e.voters.put v } :
      Election).updateVotes env ctx k v.proxy v.producers false) ↔ _ :=
    recast_accepts (he.booked Valid.lasting hv) hv.find
  have hchecks : check (0 ≤ v.staked) "stake for voting cannot be negative" =
      .ok () := check_eq_ok.mpr hv.staked
  unfold updateVotingPower
  simp only [hv.stores, hchecks, hvesting, bind, Except.bind]
  split
  · exact hrecast
  · next hnone =>
      refine iff_of_true succeeds_ok (fun _ _ p hp => ?_)
      have hnil : v.producers = [] := by
        by_contra hne
        exact hnone (.inl hne)
      rw [hnil] at hp
      exact absurd hp List.not_mem_nil

/-- **When a standing changes.** -/
theorem regproxy_accepts {isproxy : Bool} (he : Orderly Listed e) :
    Succeeds (e.regproxy env ctx x isproxy) ↔ ctx.HasAuth x ∧
      ∀ v, e.voters.find x = some v →
        isproxy ≠ v.isProxy ∧ (isproxy = false ∨ v.proxy = .none) := by
  constructor
  · rintro ⟨e', h⟩
    simp only [regproxy, bind_eq_ok, Ctx.requireAuth_eq_ok, exists_const] at h
    obtain ⟨hauth, h⟩ := h
    refine ⟨hauth, fun v hv => ?_⟩
    simp only [hv, bind_eq_ok, check_eq_ok, exists_const] at h
    exact ⟨h.1, h.2.1⟩
  · rintro ⟨hauth, hrow⟩
    unfold regproxy
    refine Succeeds.bind ⟨(), Ctx.requireAuth_eq_ok.mpr hauth⟩ (fun _ _ => ?_)
    split
    · next v hv =>
        obtain ⟨hchange, hfree⟩ := hrow v hv
        have hx : v.owner = x := KeyedTable.key_of_find hv
        have hproxy : isproxy = true → v.proxy = .none := fun h =>
          hfree.resolve_left (fun hno => absurd (h.symm.trans hno) (by decide))
        refine (succeeds_check.mpr hchange).bind (fun _ _ => ?_)
        refine (succeeds_check.mpr hfree).bind (fun _ _ => ?_)
        refine Succeeds.bind (succeeds_modify (Option.isSome_of_mem hv)
          (fun _ => rfl)) (fun voters hmod => ?_)
        obtain ⟨r, hr, hk, rfl⟩ := modify_eq_ok.mp hmod
        cases hv.symm.trans hr
        have hflip := he.put Listed.lasting (r := { v with isProxy := isproxy })
          hx (roster_flip he.roster hv hx hproxy) (.inr ⟨v, hv, rfl⟩)
        obtain ⟨rank, hrank, _, hlt⟩ := hflip.roster.bounded
        exact propagateWeightChange_succeeds hflip hrank (hlt x)
          (isSome_put (Option.isSome_of_mem hv))
    · next hnone =>
        exact Succeeds.bind (succeeds_emplace.mpr hnone)
          (fun _ _ => succeeds_pure)

end Election

namespace System

variable {env : Env} {ctx : Ctx} {t : TokenState} {s s' : SysState}
  {k proxy : Name} {producers : List Name}

/-- **When a vote of a producer goes through.** -/
theorem makeprod_accepts (he : Election.Orderly Election.Listed s.election) :
    Succeeds (makeprod env ctx t s k proxy producers) ↔
      ctx.HasAuth k ∧ t.HasCollateral k ∧
      (s.election.producers.find k).isSome ∧
      ∃ v, Election.Accepts env ctx s.election k proxy producers true v := by
  have hmarked : ∀ row, s.election.producers.find k = some row →
      Election.Orderly Election.Listed { s.election with
        producers := s.election.producers.put
          { row with isProducer := true } } ∧
      SameBy ProducerInfo.isActive s.election.producers
        (s.election.producers.put { row with isProducer := true }) := by
    intro row hrow
    have hk : row.owner = k := KeyedTable.key_of_find hrow
    have hsame : SameBy ProducerInfo.isActive s.election.producers
        (s.election.producers.put { row with isProducer := true }) :=
      .put hrow hk rfl
    refine ⟨he.sameVoters Election.Listed.lasting rfl fun p hp => ?_, hsame⟩
    rw [Option.isSome_iff_ne_none] at hp ⊢
    exact fun hnone => hp ((Election.missing_same hsame).mp hnone)
  constructor
  · rintro ⟨s', h⟩
    obtain ⟨hauth, hcoll, row, election, _, _, hrow, hvotes, _⟩ := makeprod_ok h
    obtain ⟨he₁, hsame⟩ := hmarked row hrow
    obtain ⟨v, hv⟩ := (Election.updateVotes_accepts he₁).mp ⟨election, hvotes⟩
    exact ⟨hauth, hcoll, Option.isSome_of_mem hrow, v, hv.same rfl hsame.symm⟩
  · rintro ⟨hauth, ⟨inr, hinr, henough⟩, hrow, v, hv⟩
    obtain ⟨row, hrow⟩ := Option.isSome_iff_exists.mp hrow
    obtain ⟨he₁, hsame⟩ := hmarked row hrow
    have hvotes := (Election.updateVotes_accepts he₁).mpr
      ⟨v, hv.same rfl hsame⟩
    have hbalance : Token.getBalance t k inrCode = .ok inr.balance := by
      simp only [Token.getBalance, bind_eq_ok, tableGet_eq_ok, pure_eq_ok]
      exact ⟨inr, hinr, rfl⟩
    unfold makeprod
    refine Succeeds.bind ⟨(), Ctx.requireAuth_eq_ok.mpr hauth⟩ (fun _ _ => ?_)
    refine Succeeds.bind ⟨_, hbalance⟩ (fun balance hb => ?_)
    cases hbalance.symm.trans hb
    refine (succeeds_check.mpr henough).bind (fun _ _ => ?_)
    refine Succeeds.bind (succeeds_modify (Option.isSome_of_mem hrow)
      (fun _ => rfl)) (fun prods hmod => ?_)
    obtain ⟨r, hr, _, rfl⟩ := modify_eq_ok.mp hmod
    cases hrow.symm.trans hr
    refine hvotes.bind (fun election _ => ?_)
    dsimp only
    split
    · next act hact =>
        exact Succeeds.bind (succeeds_modify (Option.isSome_of_mem hact)
          (fun _ => rfl)) (fun _ _ => succeeds_pure)
    · exact succeeds_pure

theorem makeprod_outbox
    (h : makeprod env ctx t s k proxy producers = .ok s') :
    s'.outbox = s.outbox := by
  obtain ⟨_, _, _, _, _, _, _, _, rfl, _⟩ := makeprod_ok h
  rfl

theorem regproxy_outbox {isproxy : Bool}
    (h : regproxy env ctx s k isproxy = .ok s') : s'.outbox = s.outbox := by
  simp only [regproxy, bind_eq_ok, pure_eq_ok] at h
  obtain ⟨_, _, rfl⟩ := h
  rfl

end System

namespace Chain

variable {env : Env} {c c' : Chain} {e : Event} {es : List Event} {ctx : Ctx}

/-- An action that sends nothing goes through as an event where it goes through
by itself, in time. -/
theorem exec_silent {a : SysAction} (hc : c.sys.outbox = [])
    (ha : ∀ s, System.apply env ctx c.token c.sys a = .ok s →
      s.outbox = c.sys.outbox) :
    Succeeds (exec env c (.system ctx a)) ↔ c.slot ≤ ctx.slot ∧
      Succeeds (System.apply env ctx c.token c.sys a) := by
  constructor
  · rintro ⟨c', h⟩
    obtain ⟨s, happly, _⟩ := step_apply h
    exact ⟨(step_cases h).1, s, happly⟩
  · rintro ⟨hslot, s, happly⟩
    unfold exec
    refine Succeeds.bind (succeeds_require.mpr hslot) (fun _ _ =>
      Succeeds.bind ?_ (fun _ _ => succeeds_pure))
    refine Succeeds.bind ⟨s, happly⟩ (fun s₁ h₁ => ?_)
    cases happly.symm.trans h₁
    rw [ha s happly, hc]
    exact Succeeds.bind succeeds_pure (fun _ _ => succeeds_pure)

/-- The lists of producers that are stored have passed their checks. -/
theorem step_valid (h : ListedVoteStep env c e c')
    (hc : Election.Orderly Election.Valid c.sys.election) :
    Election.Orderly Election.Valid c'.sys.election := by
  obtain ⟨hstep, hvote⟩ := h
  rcases step_votes hstep Election.Valid.lasting hc with
    ⟨_, hkept⟩ | ⟨ctx, k, x, l, e₁, rfl, hsame, he₁, hk, h⟩
  · exact hkept
  · refine Election.updateVotes_keeps he₁ Election.Valid.lasting (.inl rfl) ?_ h
    obtain ⟨v, hv⟩ := (Election.updateVotes_accepts he₁.listed).mp ⟨_, h⟩
    by_cases hx : x = .none
    · refine ⟨fun p hp => ?_, hv.listed hx⟩
      rcases hvote v (hsame.voters ▸ hv.voter) with hweight | hlisted
      · obtain ⟨_, row, hrow, _⟩ := hv.chosen p ⟨hx, hweight, hp⟩
        exact Option.isSome_of_mem hrow
      · exact Election.Listed.lasting.keep hsame.rows hlisted p hp
    · rw [(hv.followed hx).1]
      exact Election.Valid.lasting.nil e₁ k

/-- What the outcome of a vote is told from. -/
theorem valid_run (hrun : Run (ListedVoteStep env) (.genesis env) es c) :
    Election.Orderly Election.Valid c.sys.election ∧ c.sys.outbox = [] :=
  hrun.invariant (I := fun c =>
      Election.Orderly Election.Valid c.sys.election ∧ c.sys.outbox = [])
    (fun _ => True)
    (fun _ _ _ _ hc hstep =>
      ⟨step_valid hstep hc.1, step_outbox hstep.1 hc.2⟩)
    (fun _ _ => trivial) ⟨⟨.empty, fun _ _ hv => by cases hv⟩, rfl⟩

end Chain

/-- **Whose vote goes through.**  After every run in which each vote with a
negative weight is for registered producers, a producer can vote if and only if
it signs, has its collateral and its row, and gives a list that is in order or a
proxy that is one, where neither the last vote nor the new one counts for
anybody but itself; and an account becomes a proxy, or ceases to be one, if and
only if that is a change and it has no proxy itself.  What others have stored
matters to neither.  A change of stake that is in order otherwise is stopped by
the stored vote if and only if the vote is for somebody else and counts, up to
now or from now on. -/
theorem votes_accepted_iff {env : Env} {es : List Event} {c : Chain} {ctx : Ctx}
    {k : Name} (hrun : Run (Chain.ListedVoteStep env) (.genesis env) es c) :
    (∀ proxy producers,
      Succeeds (Chain.exec env c
        (.system ctx (.makeprod k proxy producers))) ↔
      c.slot ≤ ctx.slot ∧ ctx.HasAuth k ∧ c.token.HasCollateral k ∧
      (c.sys.election.producers.find k).isSome ∧
      ∃ v, c.sys.election.Accepts env ctx k proxy producers true v) ∧
    (∀ isproxy,
      Succeeds (Chain.exec env c (.system ctx (.regproxy k isproxy))) ↔
      c.slot ≤ ctx.slot ∧ ctx.HasAuth k ∧
      ∀ v, c.sys.election.voters.find k = some v →
        isproxy ≠ v.isProxy ∧ (isproxy = false ∨ v.proxy = .none)) ∧
    ∀ total v, c.sys.election.Booked k total.amount v →
      Election.checkVesting ctx k v.staked = .ok () →
      (Succeeds (c.sys.election.updateVotingPower env ctx k total) ↔
        (v.proxy = .none →
          0 < v.lastVoteWeight ∨ 0 ≤ Election.newVoteWeight env ctx v →
          ∀ p ∈ v.producers, p = k)) := by
  obtain ⟨hvalid, hout⟩ := Chain.valid_run hrun
  refine ⟨fun proxy producers => ?_, fun isproxy => ?_,
    fun total v hv hvesting =>
      Election.updateVotingPower_accepts hvalid hv hvesting⟩
  · refine (Chain.exec_silent (a := .makeprod k proxy producers) hout
      fun _ h => System.makeprod_outbox h).trans ?_
    exact and_congr_right fun _ => System.makeprod_accepts hvalid.listed
  · refine (Chain.exec_silent (a := .regproxy k isproxy) hout
      fun _ h => System.regproxy_outbox h).trans ?_
    have hflip : Succeeds (c.sys.election.regproxy env ctx k isproxy) ↔ _ :=
      Election.regproxy_accepts hvalid.listed
    refine and_congr_right fun _ => Iff.trans ?_ hflip
    constructor
    · rintro ⟨s, h⟩
      obtain ⟨e, he, _⟩ := bind_eq_ok.mp h
      exact ⟨e, he⟩
    · exact fun h => Succeeds.bind h (fun _ _ => succeeds_pure)

/-- Alice, who has voted for herself, can vote for herself again, and not for
bob. -/
theorem votes_accepted_sample : ∃ c : Chain,
    Succeeds (Chain.exec sampleEnv c
      (.system (.signedBy alice 4) (.makeprod alice .none [alice]))) ∧
    ¬ Succeeds (Chain.exec sampleEnv c
      (.system (.signedBy alice 4) (.makeprod alice .none [bob]))) := by
  have hsample : SampleRun ownEvents (fun _ c => c.slot = 3 ∧
      (c.sys.election.voters.find alice).any (fun v =>
        v.producers = [alice] ∧ 0 ≤ Election.newVoteWeight sampleEnv
          (.signedBy alice 4) v) = true ∧
      (c.sys.election.producers.find alice).any (·.isActive) = true ∧
      (c.token.accountOf alice inrCode).any (fun inr =>
        50000 ≤ inr.balance.amount.tdiv 10000) = true) := by
    decide +kernel
  obtain ⟨c₀, c₁, c, hbefore, hinit, hafter, hslot, hvoter, hactive, hinr⟩ :=
    hsample.runs
  obtain ⟨v, hv, hvoted⟩ := (Option.any_eq_true _ _).mp hvoter
  obtain ⟨row, hrow, hactive⟩ := (Option.any_eq_true _ _).mp hactive
  obtain ⟨inr, hinr, henough⟩ := (Option.any_eq_true _ _).mp hinr
  simp only [decide_eq_true_eq] at hvoted henough
  obtain ⟨hproducers, hweight⟩ := hvoted
  have hlisted : ∀ c e c', e ∈ openingEvents ++
        [.system (.signedBy systemAccount 1) (.init 0 inrSymbol)] ++
        ownEvents →
      Chain.Step sampleEnv c e c' → Chain.ListedVoteStep sampleEnv c e c' := by
    intro c e c' he hstep
    refine ⟨hstep, ?_⟩
    simp only [openingEvents, ownEvents, List.cons_append, List.nil_append,
      List.mem_cons, List.not_mem_nil, or_false] at he
    rcases he with rfl | rfl | rfl | rfl | rfl | rfl | rfl | rfl
    case inr.inr.inr.inr.inr.inr.inr =>
      obtain ⟨s, happly, _⟩ := Chain.step_apply hstep
      obtain ⟨_, _, row, _, _, _, hrow, _⟩ := System.makeprod_ok happly
      refine fun _ _ => .inr fun p hp => ?_
      rw [List.mem_singleton.mp hp]
      exact Option.isSome_of_mem hrow
    all_goals trivial
  have hrun := ((hbefore.append (.single hinit)).append hafter).mono _
    hlisted (fun _ he => he)
  have hiff : ∀ producers, Succeeds (Chain.exec sampleEnv c
      (.system (.signedBy alice 4) (.makeprod alice .none producers))) ↔ _ :=
    (votes_accepted_iff hrun).1 .none
  refine ⟨c, (hiff [alice]).mpr ⟨?_, ⟨_, List.mem_cons_self, rfl⟩,
    ⟨inr, hinr, henough⟩, Option.isSome_of_mem hrow, v, hv, ?_, ?_, ?_, ?_⟩,
    fun h => ?_⟩
  · rw [hslot]
    decide
  · exact fun hno => absurd rfl hno
  · exact fun _ => ⟨by decide, .singleton alice⟩
  · intro p hp
    have hmem := hp.2.2
    rw [hproducers] at hmem
    exact List.mem_singleton.mp hmem
  · intro p hp
    rw [List.mem_singleton.mp hp.2.2]
    exact ⟨rfl, row, hrow, fun _ => hactive⟩
  · obtain ⟨_, _, _, _, w, hw⟩ := (hiff [bob]).mp h
    cases hv.symm.trans hw.voter
    have hself := (hw.chosen bob ⟨rfl, hweight, List.mem_cons_self⟩).1
    exact absurd hself (by decide)

end Inery
