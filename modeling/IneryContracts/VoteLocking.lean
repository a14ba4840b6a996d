import IneryContracts.MemoryConservation
import IneryContracts.VoteOwnership

/-!
# No vote locks a stake

In every run in which no vote for somebody else is cast with a negative weight,
all stored votes are for a proxy with a row, for nobody, or for the voter
itself, and no change of stake is stopped by the vote it casts again.
-/

namespace Inery

open GuardedStep LedgerVector LabelledRun MachineInt RankedLinks

namespace Election

variable {env : Env} {ctx : Ctx} {e e' : Election} {k proxy : Name}
  {producers : List Name} {voting : Bool} {ps : List Poll}
  {Q : Election → Name → List Name → Prop}

/-- What is asked of a vote of `k` for producers: its weight is not negative,
or it is for nobody or for `k` itself. -/
def OwnVote (env : Env) (ctx : Ctx) (e : Election) (k : Name)
    (producers : List Name) : Prop :=
  ∀ v, e.voters.find k = some v →
    0 ≤ newVoteWeight env ctx v ∨ producers = [] ∨ producers = [k]

/-- The loop over the map stops at a producer that is not the voter. -/
theorem applyDeltas_owner {ct : ℤ} {owner : Name} {ds : List ProducerDelta}
    {l l' : VoteLoop} (h : ds.foldlM (applyDelta ct owner voting) l = .ok l')
    {d : ProducerDelta} (hd : d ∈ ds) : d.producer = owner := by
  induction ds generalizing l with
  | nil => exact absurd hd List.not_mem_nil
  | cons c ds ih =>
      rw [List.foldlM_cons, bind_eq_ok] at h
      obtain ⟨l₁, h₁, h⟩ := h
      rcases List.mem_cons.mp hd with rfl | hd
      · simp only [applyDelta, bind_eq_ok, deref_eq_ok, check_eq_ok,
          exists_const] at h₁
        obtain ⟨row, hrow, howner, _⟩ := h₁
        exact (KeyedTable.key_of_find hrow).symm.trans howner.symm
      · exact ih h hd

/-- A vote with a weight that is not negative is for the voter itself. -/
theorem updateVotes_own {v : VoterInfo} (hv : e.voters.find k = some v)
    (hweight : 0 ≤ newVoteWeight env ctx v)
    (h : e.updateVotes env ctx k proxy producers voting = .ok e') :
    producers = [] ∨ producers = [k] := by
  simp only [updateVotes, bind_eq_ok, orStop_eq_ok, check_eq_ok, pure_eq_ok,
    exists_const] at h
  obtain ⟨_, hvalid, u, hu, _, ⟨e₁, ds₁⟩, _, ⟨e₂, ds₂⟩, hcast, l, hl, _⟩ := h
  cases hv.symm.trans hu
  obtain ⟨hnodup, hempty⟩ := validateVote_ok hvalid
  by_cases hproxy : proxy = .none
  · unfold castVote at hcast
    rw [if_neg (not_not.mpr hproxy), if_pos hweight] at hcast
    cases hcast
    have hall : ∀ p ∈ producers, p = k := by
      intro p hp
      obtain ⟨d, hd, rfl⟩ := List.mem_map.mp
        (mem_producers_bumpAll (newVoteWeight env ctx v) true ds₁ (.inl hp))
      exact (applyDeltas_owner hl hd).trans (KeyedTable.key_of_find hv)
    cases producers with
    | nil => exact .inl rfl
    | cons p rest =>
        obtain ⟨hp, _⟩ := List.nodup_cons.mp hnodup
        have hrest : rest = [] := by
          refine List.eq_nil_iff_forall_not_mem.mpr (fun q hq => hp ?_)
          rw [hall p List.mem_cons_self,
            ← hall q (List.mem_cons_of_mem _ hq)]
          exact hq
        rw [hrest, hall p List.mem_cons_self]
        exact .inr rfl
  · exact .inl (hempty hproxy).1

/-- A vote whose producers satisfy the condition keeps the votes in order. -/
theorem updateVotes_keeps (he : Orderly Q e) (hQ : Lasting Q)
    (hvoting : voting = true ∨
      ∀ v, e.voters.find k = some v → v.proxy = proxy)
    (hproducers : Q e k producers)
    (h : e.updateVotes env ctx k proxy producers voting = .ok e') :
    Orderly Q e' := by
  obtain ⟨hvoted, hroster⟩ := updateVotes_voted he.roster hvoting h
  obtain ⟨v, hv, hrow⟩ := hvoted.row
  have hkept : ∀ p, (e.producers.find p).isSome →
      (e'.producers.find p).isSome :=
    fun _ => isSome_producers (updateVotes_record h).producers
  refine ⟨hroster, fun y u hu => ?_⟩
  by_cases hy : y = k
  · subst hy
    cases hrow.symm.trans hu
    exact hQ.keep hkept hproducers
  · obtain ⟨w, hw, hsame⟩ := hvoted.others.origin hy hu
    rw [VoterInfo.choice_producers hsame]
    exact hQ.keep hkept (he.votes y w hw)

/-- A vote keeps the votes secure if and only if it is an own vote. -/
theorem updateVotes_secure (he : Secure e)
    (hk : (e.producers.find k).isSome)
    (h : e.updateVotes env ctx k proxy producers true = .ok e') :
    OwnVote env ctx e k producers ↔ Secure e' := by
  obtain ⟨v, hv, hrow⟩ := (updateVotes_voted he.roster (.inl rfl) h).1.row
  constructor
  · intro hown
    have hproducers : producers = [] ∨ producers = [k] := by
      rcases hown v hv with hweight | hproducers
      · exact updateVotes_own hv hweight h
      · exact hproducers
    exact secure_iff.mpr (updateVotes_keeps (secure_iff.mp he) Own.lasting
      (.inl rfl) (hproducers.imp_right fun hone => ⟨hone, hk⟩) h)
  · intro hsecure u hu
    cases hv.symm.trans hu
    exact .inr ((hsecure.own k _ hrow).imp_right fun hone => hone.1)

/-- A change of stake keeps the votes in order. -/
theorem updateVotingPower_orderly {total : Asset} (he : Orderly Q e)
    (hQ : Lasting Q) (h : e.updateVotingPower env ctx k total = .ok e') :
    Orderly Q e' := by
  obtain ⟨v, hbooked, ⟨_, _, rfl⟩ | ⟨_, hvotes⟩⟩ := updateVotingPower_cases h
  · exact he.booked hQ hbooked
  · have he₁ := he.booked hQ hbooked
    exact updateVotes_keeps he₁ hQ (.inr fun u hu => by
      rw [Option.some.inj (hu.symm.trans hbooked.find)])
      (he₁.votes k v hbooked.find) hvotes

/-- All other polls keep the votes in order. -/
theorem PollStep.orderly {p : Poll} (h : PollStep env ctx e p e')
    (hQ : Lasting Q) (hp : ∀ k x l, p ≠ .vote k x l) (he : Orderly Q e) :
    Orderly Q e' := by
  have hroster := h.roster he.roster
  cases p with
  | other =>
      have hsame : SameVotes e e' := h
      exact he.sameVoters hQ hsame.voters hsame.rows
  | flag account =>
      obtain ⟨_, _, hset⟩ := h
      obtain ⟨flags, ⟨v, hv, hk, rfl⟩ | ⟨_, rfl⟩⟩ := System.setManaged_row hset
      · exact he.put hQ hk hroster (.inr ⟨v, hv, rfl⟩)
      · exact he.put hQ rfl hroster (.inl rfl)
  | stake owner total => exact updateVotingPower_orderly he hQ h
  | vote voter proxy producers => exact absurd rfl (hp _ _ _)
  | proxy x isproxy =>
      obtain ⟨v, hv, hx, hproxy, hprop⟩ | ⟨_, rfl⟩ := regproxy_cases h
      · have hflip := he.put hQ (r := { v with isProxy := isproxy }) hx
          (roster_flip he.roster hv hx hproxy) (.inr ⟨v, hv, rfl⟩)
        exact hflip.propagated hQ hprop
      · exact he.put hQ rfl hroster (.inl rfl)

theorem polls_orderly (h : Run (PollStep env ctx) e ps e') (hQ : Lasting Q)
    (hps : ∀ p ∈ ps, ∀ k x l, p ≠ .vote k x l) (he : Orderly Q e) :
    Orderly Q e' :=
  h.invariant (fun p => ∀ k x l, p ≠ .vote k x l)
    (fun _ _ _ hp hs hstep => PollStep.orderly hstep hQ hp hs) hps he

theorem polls_secure (h : Run (PollStep env ctx) e ps e')
    (hps : ∀ p ∈ ps, ∀ k x l, p ≠ .vote k x l) (he : Secure e) : Secure e' :=
  secure_iff.mpr (polls_orderly h Own.lasting hps (secure_iff.mp he))

end Election

/-- What is asked of an event. -/
def Event.OwnVote (env : Env) (e : Election) : Event → Prop
  | .system ctx (.makeprod voter _ producers) =>
      Election.OwnVote env ctx e voter producers
  | _ => True

namespace Chain

/-- An event that succeeds and casts no vote for somebody else with a negative
weight. -/
def OwnVoteStep (env : Env) (c : Chain) (e : Event) (c' : Chain) : Prop :=
  Step env c e c' ∧ e.OwnVote env c.sys.election

variable {env : Env} {c c' : Chain} {e : Event}

/-- An event keeps the votes in order, or it is a vote, which finds them in
order. -/
theorem step_votes {Q : Election → Name → List Name → Prop}
    (h : Step env c e c') (hQ : Election.Lasting Q)
    (hc : Election.Orderly Q c.sys.election) :
    (∀ ctx k x l, e ≠ .system ctx (.makeprod k x l)) ∧
      Election.Orderly Q c'.sys.election ∨
    ∃ ctx k x l e₁, e = .system ctx (.makeprod k x l) ∧
      Election.SameVotes c.sys.election e₁ ∧ Election.Orderly Q e₁ ∧
      (e₁.producers.find k).isSome ∧
      e₁.updateVotes env ctx k x l true = .ok c'.sys.election := by
  obtain ⟨ps, hps, hrun⟩ := step_polls h
  have hother : ps = [.other] → ∀ p ∈ ps, ∀ k x l, p ≠ .vote k x l := by
    rintro rfl p hp
    rw [List.mem_singleton.mp hp]
    simp
  cases e with
  | token ctx a =>
      exact .inl ⟨by simp, Election.polls_orderly hrun hQ (hother hps) hc⟩
  | deferred slot isAccount owner =>
      exact .inl ⟨by simp, Election.polls_orderly hrun hQ (hother hps) hc⟩
  | system ctx a =>
      by_cases ha : ∀ k x l, a ≠ .makeprod k x l
      · refine .inl ⟨fun _ k x l heq => ?_,
          Election.polls_orderly hrun hQ (hps.no_vote ha) hc⟩
        exact ha k x l (Event.system.inj heq).2
      · simp only [ne_eq, not_forall, not_not] at ha
        obtain ⟨k, x, l, rfl⟩ := ha
        obtain rfl : ps = [.other, .vote k x l] := hps
        obtain ⟨e₁, hother, hrun₂⟩ := hrun.uncons
        have hsame : Election.SameVotes c.sys.election e₁ := hother
        obtain ⟨hk, hvote⟩ := hrun₂.of_single
        exact .inr ⟨ctx, k, x, l, e₁, rfl, hsame,
          hc.sameVoters hQ hsame.voters hsame.rows, hk, hvote⟩

/-- **An event keeps the votes secure if and only if it is an own vote.** -/
theorem step_secure (h : Step env c e c') (hc : c.sys.election.Secure) :
    e.OwnVote env c.sys.election ↔ c'.sys.election.Secure := by
  rcases step_votes h Election.Own.lasting (Election.secure_iff.mp hc) with
    ⟨hno, hkept⟩ | ⟨ctx, k, x, l, e₁, rfl, hsame, he₁, hk, hvote⟩
  · refine iff_of_true ?_ (Election.secure_iff.mpr hkept)
    cases e with
    | token ctx a => trivial
    | deferred slot isAccount owner => trivial
    | system ctx a =>
        cases a with
        | makeprod k x l => exact absurd rfl (hno ctx k x l)
        | _ => trivial
  · have hiff := Election.updateVotes_secure (Election.secure_iff.mpr he₁) hk
      hvote
    unfold Election.OwnVote at hiff
    rw [hsame.voters] at hiff
    exact hiff

theorem secure_run {es : List Event}
    (hrun : Run (OwnVoteStep env) (.genesis env) es c) :
    c.sys.election.Secure :=
  hrun.invariant (I := fun c => c.sys.election.Secure) (fun _ => True)
    (fun _ _ _ _ hc hstep => (step_secure hstep.1 hc).mp hstep.2)
    (fun _ _ => trivial) ⟨.empty, fun _ _ hv => by cases hv⟩

end Chain

/-- **Stored votes never stop a change of stake**, in every run without a vote
for somebody else that is cast with a negative weight.  After such a run, and
between the changes of stake of one action, every stored vote is for nobody,
for the voter itself as a registered producer, or for a proxy that has a row,
is not the voter and has no proxy as its voter; and a change of stake that does
not come out negative and that the vesting allows succeeds.  The next event
leaves only own votes if and only if it meets the condition. -/
theorem votes_never_lock {env : Env} {es : List Event} {c : Chain} {ctx : Ctx}
    {ps : List Poll} {e : Election}
    (hrun : Run (Chain.OwnVoteStep env) (.genesis env) es c)
    (hps : Run (Election.PollStep env ctx) c.sys.election ps e)
    (hstakes : ∀ p ∈ ps, ∃ owner total, p = .stake owner total) :
    (∀ y v, e.voters.find y = some v →
      (v.producers = [] ∨ v.producers = [y] ∧ (e.producers.find y).isSome) ∧
      (v.proxy ≠ .none → (e.voters.find v.proxy).isSome ∧ v.proxy ≠ y ∧
        v.isProxy = false)) ∧
    (∀ owner total v, e.Booked owner total.amount v →
      Election.checkVesting ctx owner v.staked = .ok () →
      Succeeds (e.updateVotingPower env ctx owner total)) ∧
    ∀ ev c', Chain.Step env c ev c' →
      (ev.OwnVote env c.sys.election ↔ c'.sys.election.OwnVotes) := by
  have hc := Chain.secure_run hrun
  have he := Election.polls_secure hps (fun p hp k x l heq => by
    obtain ⟨_, _, hstake⟩ := hstakes p hp
    simp [hstake] at heq) hc
  refine ⟨fun y v hv => ⟨he.own y v hv, fun hproxy => ?_⟩,
    fun owner total v hv hvesting =>
      Election.updateVotingPower_succeeds he hv hvesting,
    fun ev c' hstep => ?_⟩
  · have hlink : ProxyLink e.voters y v.proxy := ⟨v, hv, rfl, hproxy⟩
    obtain ⟨rank, hrank⟩ := he.roster.ranked
    refine ⟨he.roster.rows y _ hlink, fun heq => ?_, ?_⟩
    · have hlt := hrank y v.proxy hlink
      rw [heq] at hlt
      exact hlt.false
    · cases hflag : v.isProxy with
      | false => rfl
      | true => exact absurd ((he.roster.fair y v hv).proxy hflag) hproxy
  · rw [Chain.step_secure hstep hc]
    exact ⟨fun hsecure => hsecure.own,
      fun hown => ⟨hstep.roster hc.roster, hown⟩⟩

/-- Alice is registered and has voted for herself. -/
def ownEvents : List Event :=
  [.system (.signedBy alice 2) (.regproducer alice {} "" 0),
    .system (.signedBy alice 2)
      (.delegatebw alice alice ⟨100, inrSymbol⟩ ⟨100, inrSymbol⟩ false),
    .system (.signedBy alice 3) (.makeprod alice .none [alice])]

/-- Alice, who votes for herself, takes back half of her stake. -/
theorem votes_never_lock_sample : ∃ (c : Chain) (v : VoterInfo),
    c.sys.election.voters.find alice = some v ∧ v.staked = 200 ∧
    v.producers = [alice] ∧
    Succeeds (c.sys.election.updateVotingPower sampleEnv (.signedBy alice 4)
      alice ⟨-100, inrSymbol⟩) := by
  have hsample : SampleRun ownEvents (fun _ c =>
      (c.sys.election.voters.find alice).any (fun v =>
        v.owner = alice ∧ v.staked = 200 ∧ v.producers = [alice]) = true) := by
    decide +kernel
  obtain ⟨c₀, c₁, c, hbefore, hinit, hafter, hany⟩ := hsample.runs
  obtain ⟨v, hv, hrow⟩ := (Option.any_eq_true _ _).mp hany
  simp only [decide_eq_true_eq] at hrow
  have hown : ∀ c e c', e ∈ openingEvents ++
        [.system (.signedBy systemAccount 1) (.init 0 inrSymbol)] ++
        ownEvents →
      Chain.Step sampleEnv c e c' → Chain.OwnVoteStep sampleEnv c e c' := by
    intro c e c' he hstep
    refine ⟨hstep, ?_⟩
    simp only [openingEvents, ownEvents, List.cons_append, List.nil_append,
      List.mem_cons, List.not_mem_nil, or_false] at he
    rcases he with rfl | rfl | rfl | rfl | rfl | rfl | rfl | rfl
    case inr.inr.inr.inr.inr.inr.inr => exact fun _ _ => .inr (.inr rfl)
    all_goals trivial
  have hrun := ((hbefore.append (.single hinit)).append hafter).mono _
    hown (fun _ he => he)
  refine ⟨c, v, hv, hrow.2.1, hrow.2.2, (votes_never_lock hrun (.nil _)
    (by simp)).2.1 alice ⟨-100, inrSymbol⟩ { v with staked := 100 }
    ⟨hrow.1, Int.natCast_nonneg 100, .inr ⟨v, hv, ?_⟩⟩ rfl⟩
  rw [hrow.2.1]
  rfl

def carol : Name := .ofChars ['c', 'a', 'r', 'o', 'l']

/-- Weights that have doubled after 52 weeks of two slots a second. -/
def yearEnv : Env where
  voteFactor slot := if slot < 62899200 then 1 else 2
  voteFactor_pos slot := by
    split <;> decide
  voteFactor_mono s t hst := by
    by_cases ht : t < 62899200
    · rw [if_pos ht, if_pos (UInt32.lt_of_le_of_lt hst ht)]
    · rw [if_neg ht]
      split <;> norm_num
  continuousRate _ := 0
  authorityIsValid _ := true
  sha256 := id
  blockchainParameters := sampleParameters

/-- Carol follows bob, who then follows alice.  A year later carol stakes more,
so that bob is re-weighed from 1 to 2 without telling alice, and leaves her.
Alice, with whom -1 is booked now, votes for bob. -/
def lockingEvents : List Event :=
  openingEvents ++
  [.token (.signedBy systemAccount 1)
      (.transfer systemAccount carol ⟨1000000000, inrSymbol⟩ ""),
    .system (.signedBy systemAccount 1) (.init 0 inrSymbol),
    .system (.signedBy alice 2) (.regproducer alice {} "" 0),
    .system (.signedBy bob 2) (.regproducer bob {} "" 0),
    .system (.signedBy carol 2) (.regproducer carol {} "" 0),
    .system (.signedBy bob 3)
      (.delegatebw bob alice ⟨1, inrSymbol⟩ ⟨0, inrSymbol⟩ false),
    .system (.signedBy carol 3)
      (.delegatebw carol bob ⟨1, inrSymbol⟩ ⟨0, inrSymbol⟩ false),
    .system (.signedBy carol 3)
      (.delegatebw carol carol ⟨1, inrSymbol⟩ ⟨0, inrSymbol⟩ false),
    .system (.signedBy bob 4) (.regproxy bob true),
    .system (.signedBy carol 4) (.makeprod carol bob []),
    .system (.signedBy bob 5) (.regproxy bob false),
    .system (.signedBy alice 5) (.regproxy alice true),
    .system (.signedBy bob 5) (.makeprod bob alice []),
    .system (.signedBy carol 62899200)
      (.delegatebw carol carol ⟨1, inrSymbol⟩ ⟨0, inrSymbol⟩ false),
    .system (.signedBy bob 62899201) (.makeprod bob .none []),
    .system (.signedBy alice 62899202) (.makeprod alice .none [bob])]

/-- Alice's vote for bob is kept, and it stops every stake of hers. -/
theorem votes_lock : ∃ (c : Chain) (v : VoterInfo),
    Chain.Reachable yearEnv c ∧
    c.sys.election.voters.find alice = some v ∧ v.staked = 0 ∧
    v.producers = [bob] ∧
    Chain.exec yearEnv c (.system (.signedBy alice 62899203)
        (.delegatebw alice alice ⟨5, inrSymbol⟩ ⟨5, inrSymbol⟩ false)) =
      .error (.check " You can only vote for yourself.") := by
  have hlock : Finishes (lockingEvents.foldlM (Chain.exec yearEnv)
      (.genesis yearEnv)) (fun c =>
        (c.sys.election.voters.find alice).any (fun v =>
          v.staked = 0 ∧ v.producers = [bob]) = true ∧
        (Chain.exec yearEnv c (.system (.signedBy alice 62899203)
          (.delegatebw alice alice ⟨5, inrSymbol⟩ ⟨5, inrSymbol⟩
            false))).map (fun _ => ()) =
        .error (.check " You can only vote for yourself.")) := by
    decide +kernel
  obtain ⟨c, hrun, hany, hstop⟩ := hlock
  obtain ⟨v, hv, hrow⟩ := (Option.any_eq_true _ _).mp hany
  simp only [decide_eq_true_eq] at hrow
  refine ⟨c, v, ⟨_, Run.of_foldlM hrun⟩, hv, hrow.1, hrow.2, ?_⟩
  revert hstop
  cases Chain.exec yearEnv c (.system (.signedBy alice 62899203)
    (.delegatebw alice alice ⟨5, inrSymbol⟩ ⟨5, inrSymbol⟩ false)) <;>
    simp [Except.map]

end Inery
