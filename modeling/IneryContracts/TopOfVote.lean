import IneryContracts.ProposedSchedules
import IneryContracts.VoteLocking

/-!
# The top of the vote

The producers that a block proposes are active, have votes and sign with the
authority they registered last, and none of them has fewer votes than one that
is left out.  All who are active and have votes are there, unless there are too
many of them or a row that is not active stands in the index before one of
them.  Such a row has less than no votes, which only the votes of a proxy can
bring about.
-/

namespace Inery

open GuardedStep LabelledRun

/-! ## The authority registered last -/

/-- The action ends the registration of the account. -/
def SysAction.Resigns (k : Name) : SysAction → Prop
  | .unregprod producer => producer = k
  | .rmvproducer producer => producer = k
  | _ => False

/-- The account has registered with the authority, and since then has neither
registered again nor unregistered nor been removed. -/
def LastRegistered (es : List Event) (k : Name)
    (auth : BlockSigningAuthority) : Prop :=
  ∃ before ctx a after, es = before ++ .system ctx a :: after ∧
    a.Registers k auth ∧ ∀ ctx' b, .system ctx' b ∈ after →
      ¬ b.Resigns k ∧ ∀ auth', ¬ b.Registers k auth'

theorem LastRegistered.snoc {es : List Event} {e : Event} {k : Name}
    {auth : BlockSigningAuthority} (h : LastRegistered es k auth)
    (he : ∀ ctx b, e = .system ctx b →
      ¬ b.Resigns k ∧ ∀ auth', ¬ b.Registers k auth') :
    LastRegistered (es ++ [e]) k auth := by
  obtain ⟨before, ctx, a, after, rfl, hreg, hafter⟩ := h
  refine ⟨before, ctx, a, after ++ [e], by simp, hreg, ?_⟩
  intro ctx' b hb
  rcases List.mem_append.mp hb with hb | hb
  · exact hafter ctx' b hb
  · exact he ctx' b (List.mem_singleton.mp hb).symm

theorem LastRegistered.now {es : List Event} {ctx : Ctx} {a : SysAction}
    {k : Name} {auth : BlockSigningAuthority} (h : a.Registers k auth) :
    LastRegistered (es ++ [.system ctx a]) k auth :=
  ⟨es, ctx, a, [], rfl, h, by simp⟩

/-- Every active producer signs with the authority it registered last. -/
def SignsAsRegistered (es : List Event) (e : Election) : Prop :=
  ∀ k row, e.producers.find k = some row → row.isActive = true →
    ∃ auth, row.producerAuthority = some auth ∧ auth.threshold ≠ 0 ∧
      LastRegistered es k auth

/-- An action that does not write the standing of an account neither registers
it nor ends its registration. -/
private theorem SysAction.not_ranks {a : SysAction} {k : Name}
    (h : ¬ a.Ranks k) : ¬ a.Resigns k ∧ ∀ auth, ¬ a.Registers k auth := by
  cases a with
  | regproducer producer key url location =>
      exact ⟨not_false, fun _ hreg => h hreg.1⟩
  | regproducer2 producer auth url location =>
      exact ⟨not_false, fun _ hreg => h hreg.1⟩
  | unregprod producer => exact ⟨h, fun _ => not_false⟩
  | rmvproducer producer => exact ⟨h, fun _ => not_false⟩
  | _ => exact ⟨not_false, fun _ => not_false⟩

/-- A registration sets the authority, everything but a resignation keeps it. -/
theorem StandingMove.signs {env : Env} {ctx : Ctx} {t : TokenState}
    {s s' : SysState} {a : SysAction} {es : List Event}
    (hvalid : ∀ auth, env.authorityIsValid auth = true → auth.threshold ≠ 0)
    (h : ∀ k, StandingMove env ctx t s s' a k)
    (hs : SignsAsRegistered es s.election) :
    SignsAsRegistered (es ++ [.system ctx a]) s'.election := by
  intro k row hrow hactive
  cases h k with
  | registered auth row' prd action signed valid stored active authority =>
      rw [stored] at hrow
      cases hrow
      refine ⟨auth, authority, ?_, .now action⟩
      rcases valid with hone | hlib
      · rw [hone]
        decide
      · exact hvalid auth hlib
  | retired old action signed found stored =>
      rw [stored] at hrow
      cases hrow
      cases hactive
  | removed old action signed found stored =>
      rw [stored] at hrow
      cases hrow
      cases hactive
  | made proxy producers old row' action signed collateral found stored
      standing =>
      rw [stored] at hrow
      cases hrow
      obtain ⟨hsame, _, hauthority⟩ := ProducerInfo.of_standing standing
      obtain ⟨auth, hold, hthreshold, hlast⟩ :=
        hs k old found (hsame ▸ hactive)
      refine ⟨auth, hauthority.trans hold, hthreshold, hlast.snoc ?_⟩
      rintro _ _ heq
      cases heq
      subst action
      exact ⟨not_false, fun _ => not_false⟩
  | kept unranked standing =>
      rw [hrow, Option.map_some] at standing
      obtain ⟨old, hold, hsame⟩ := Option.map_eq_some_iff.mp standing.symm
      obtain ⟨hsameActive, _, hauthority⟩ := ProducerInfo.of_standing hsame
      obtain ⟨auth, hauth, hthreshold, hlast⟩ :=
        hs k old hold (hsameActive.trans hactive)
      refine ⟨auth, hauthority.symm.trans hauth, hthreshold, hlast.snoc ?_⟩
      rintro _ _ heq
      cases heq
      exact SysAction.not_ranks unranked

theorem signsAsRegistered {env : Env} {es : List Event} {c : Chain}
    (hvalid : ∀ auth, env.authorityIsValid auth = true → auth.threshold ≠ 0)
    (hrun : Run (Chain.Step env) (.genesis env) es c) :
    SignsAsRegistered es c.sys.election := by
  refine hrun.history
    (H := fun es d => SignsAsRegistered es d.sys.election) ?_ ?_
  · intro k row hrow
    cases hrow
  · intro ds d e d' hd hstep
    rcases Chain.step_standing hstep with ⟨helection, _, hne⟩ |
      ⟨ctx, a, rfl, hmove⟩
    · intro k row hrow hactive
      rw [helection] at hrow
      obtain ⟨auth, hauth, hthreshold, hlast⟩ := hd k row hrow hactive
      exact ⟨auth, hauth, hthreshold,
        hlast.snoc fun ctx b heq => absurd heq (hne ctx b)⟩
    · exact StandingMove.signs hvalid hmove hd

/-! ## The rows at the top -/

/-- How many active producers have votes. -/
def Election.countCandidates (e : Election) : ℕ :=
  e.producers.rows.countP (fun p => decide p.Candidate)

/-- The schedule is the top of the vote. -/
structure TopOfVote (es : List Event) (e : Election)
    (schedule : List ProducerAuthority) : Prop where
  nonempty : schedule ≠ []
  bounded : schedule.length ≤ 101
  distinct : (schedule.map (·.producerName)).Nodup
  candidate : ∀ x ∈ schedule, ∃ p,
    e.producers.find x.producerName = some p ∧ p.Candidate
  authority : ∀ x ∈ schedule, x.authority.threshold ≠ 0 ∧
    LastRegistered es x.producerName x.authority
  best : ∀ x ∈ schedule, ∀ p, e.producers.find x.producerName = some p →
    ∀ q ∈ e.producers.rows, q.isActive = true → p.totalVotes < q.totalVotes →
      q.owner ∈ schedule.map (·.producerName)
  complete : e.countCandidates ≤ 101 → ∀ q ∈ e.producers.rows, q.Candidate →
      q.owner ∈ schedule.map (·.producerName)

/-- No row that is not active stands before a candidate in the index. -/
def Election.Unblocked (e : Election) : Prop :=
  ∀ p ∈ e.producers.rows, p.isActive = false →
    ∀ q ∈ e.producers.rows, q.Candidate → ¬ p.Precedes q

instance : DecidablePred Election.Unblocked := fun _ =>
  inferInstanceAs (Decidable (∀ _ ∈ _, _ → ∀ _ ∈ _, _))

namespace Election

variable {e : Election} {p q : ProducerInfo} {x : ProducerAuthority}

theorem mem_schedule :
    x ∈ e.schedule ↔
      ∃ p ∈ e.elected, x = ⟨p.owner, p.getProducerAuthority⟩ := by
  unfold schedule
  simp only [List.mem_map, List.mem_insertionSort, topProducers_eq]
  constructor
  · rintro ⟨_, ⟨p, hp, rfl⟩, rfl⟩
    exact ⟨p, hp, rfl⟩
  · rintro ⟨p, hp, rfl⟩
    exact ⟨_, ⟨p, hp, rfl⟩, rfl⟩

/-- The rows before a row that precedes another precede that one, too. -/
private theorem countP_precedes_le (h : q.Precedes p) :
    e.producers.rows.countP (fun y => decide (y.Precedes q)) ≤
      e.producers.rows.countP (fun y => decide (y.Precedes p)) :=
  List.countP_mono_left fun _ _ hy =>
    decide_eq_true (Trans.trans (of_decide_eq_true hy) h)

/-- A row before an elected one is elected. -/
theorem elected_of_precedes (hp : p ∈ e.elected) (hq : q ∈ e.producers.rows)
    (h : q.Precedes p) : q ∈ e.elected := by
  obtain ⟨_, helectable, hcount⟩ := mem_elected_iff.mp hp
  refine mem_elected_iff.mpr ⟨hq, fun y hy hyq => ?_,
    (countP_precedes_le h).trans hcount⟩
  exact helectable y hy (Trans.trans hyq h)

/-- Where no row is in the way, all rows up to a candidate are candidates. -/
theorem Unblocked.electable (h : e.Unblocked) (hq : q ∈ e.producers.rows)
    (hcand : q.Candidate) : e.Electable q := by
  intro y hy hyq
  have hactive : y.isActive = true :=
    Bool.of_not_eq_false fun hnot => h y hy hnot q hq hcand hyq
  have hle := hyq.byVotes_le
  rw [hcand.byVotes_eq] at hle
  unfold ProducerInfo.byVotes at hle
  rw [if_pos hactive, neg_le_neg_iff] at hle
  exact ⟨hcand.1.trans_le hle, hactive⟩

/-- **Who is left out**: with no more than 101 candidates all of them are
elected exactly where no inactive row is in the way. -/
theorem all_elected_iff (hfew : e.countCandidates ≤ 101) :
    (∀ q ∈ e.producers.rows, q.Candidate → q ∈ e.elected) ↔ e.Unblocked := by
  constructor
  · intro hall p hp hactive q hq hcand hpq
    have hcand' := (mem_elected (hall q hq hcand)).2 p hp hpq
    rw [hcand'.2] at hactive
    cases hactive
  · intro h q hq hcand
    have helectable := h.electable hq hcand
    refine mem_elected_iff.mpr ⟨hq, helectable, le_trans ?_ hfew⟩
    refine List.countP_mono_left fun y hy hyq => ?_
    exact decide_eq_true (helectable y hy (of_decide_eq_true hyq))

/-- The names in the schedule are those of the elected rows. -/
theorem owner_mem_schedule (hq : q ∈ e.producers.rows) :
    q.owner ∈ e.schedule.map (·.producerName) ↔ q ∈ e.elected := by
  simp only [List.mem_map, mem_schedule]
  constructor
  · rintro ⟨_, ⟨p, hp, rfl⟩, howner⟩
    rw [← List.inj_on_of_nodup_map e.producers.nodup (mem_elected hp).1 hq
      howner]
    exact hp
  · intro hmem
    exact ⟨_, ⟨q, hmem, rfl⟩, rfl⟩

end Election

/-- What is elected is the top of the candidates that the loop reaches. -/
theorem Election.topOfVote_iff {es : List Event} {e : Election}
    (hsigns : SignsAsRegistered es e) (hne : e.schedule ≠ []) :
    TopOfVote es e e.schedule ↔ e.Unblocked ∨ 101 < e.countCandidates := by
  constructor
  · intro htop
    rcases Nat.lt_or_ge 101 e.countCandidates with hmany | hfew
    · exact .inr hmany
    · refine .inl ((all_elected_iff hfew).mp fun q hq hcand => ?_)
      exact (owner_mem_schedule hq).mp (htop.complete hfew q hq hcand)
  · intro hall
    refine ⟨hne, ?_, ?_, ?_, ?_, ?_, ?_⟩
    · rw [length_schedule]
      exact min_le_left _ _
    · have hl := List.perm_insertionSort
        (fun a b : ProducerAuthority × ℕ => a.2 ≤ b.2) (System.topProducers e)
      unfold schedule
      rw [names_eq]
      exact (names_perm hl).nodup_iff.mpr (elected_owners e)
    · intro x hx
      obtain ⟨p, hp, rfl⟩ := mem_schedule.mp hx
      exact ⟨p, KeyedTable.mem_rows.mp (mem_elected hp).1,
        candidate_of_elected hp⟩
    · intro x hx
      obtain ⟨p, hp, rfl⟩ := mem_schedule.mp hx
      obtain ⟨auth, hauth, hthreshold, hlast⟩ := hsigns p.owner p
        (KeyedTable.mem_rows.mp (mem_elected hp).1) (candidate_of_elected hp).2
      have hsame : p.getProducerAuthority = auth := by
        simp [ProducerInfo.getProducerAuthority, hauth, hthreshold]
      rw [hsame]
      exact ⟨hthreshold, hlast⟩
    · intro x hx p hfind q hq hactive hlt
      obtain ⟨p', hp', rfl⟩ := mem_schedule.mp hx
      have hfind' := KeyedTable.mem_rows.mp (mem_elected hp').1
      cases hfind.symm.trans hfind'
      have hcand := candidate_of_elected hp'
      have hcand' : q.Candidate := ⟨hcand.1.trans hlt, hactive⟩
      refine (owner_mem_schedule hq).mpr (elected_of_precedes hp' hq (.inl ?_))
      rw [hcand'.byVotes_eq, hcand.byVotes_eq]
      exact neg_lt_neg hlt
    · intro hfew q hq hcand
      have hun : e.Unblocked := hall.resolve_right (not_lt.mpr hfew)
      exact (owner_mem_schedule hq).mpr
        ((all_elected_iff hfew).mpr hun q hq hcand)

/-- **Where the elected set is the top of the vote.**  It always is the top of
the candidates up to the first row that is not one; it misses none of the
candidates exactly where no inactive row stands before one of them, or where
there are more than 101 of them anyway. -/
theorem schedule_top_of_vote {env : Env} {es : List Event} {c c' : Chain}
    {ctx : Ctx} {timestamp : UInt32} {producer : Name}
    {schedule : List ProducerAuthority}
    (hvalid : ∀ auth, env.authorityIsValid auth = true → auth.threshold ≠ 0)
    (hrun : Run (Chain.Step env) (.genesis env) es c)
    (h : Chain.Step env c (.system ctx (.onblock timestamp producer)) c')
    (hproposed : c'.sys.proposed = c.sys.proposed ++ [schedule]) :
    TopOfVote es c.sys.election schedule ↔
      c.sys.election.Unblocked ∨ 101 < c.sys.election.countCandidates := by
  obtain ⟨hdue, rfl⟩ := Chain.proposes h hproposed
  have hsigns := signsAsRegistered hvalid hrun
  refine Election.topOfVote_iff hsigns ?_
  intro hnil
  have hlength := congrArg List.length hnil
  rw [Election.length_schedule, ← Election.length_topProducers] at hlength
  exact hdue.2.2.1 hlength

/-- Weights that double after a year, and the checks of an authority. -/
def checkedEnv : Env :=
  { yearEnv with
    authorityIsValid := fun auth => decide (0 < auth.threshold.toNat ∧
      auth.threshold.toNat ≤ (auth.keys.map (·.weight.toNat)).sum ∧
      (auth.keys.map (·.key)).Nodup) }

private theorem checkedEnv_valid (auth : BlockSigningAuthority)
    (h : checkedEnv.authorityIsValid auth = true) : auth.threshold ≠ 0 := by
  have hpos := (of_decide_eq_true h).1
  rintro hzero
  rw [hzero] at hpos
  exact absurd hpos (by decide)

/-- Alice, bob and carol vote for themselves, and bob becomes a proxy.  A year
later alice follows bob, who is re-weighed from 1 to 2 without it being counted,
takes back his stake, and loses alice's votes again. -/
def followingEvents : List Event :=
  openingEvents ++
  [.token (.signedBy systemAccount 1)
      (.transfer systemAccount carol ⟨1000000000, inrSymbol⟩ ""),
    .system (.signedBy systemAccount 1) (.init 0 inrSymbol),
    .system (.signedBy alice 2) (.regproducer alice {} "" 0),
    .system (.signedBy bob 2) (.regproducer bob {} "" 0),
    .system (.signedBy carol 2) (.regproducer carol {} "" 0),
    .system (.signedBy alice 2)
      (.delegatebw alice alice ⟨5000, inrSymbol⟩ ⟨5000, inrSymbol⟩ false),
    .system (.signedBy bob 2)
      (.delegatebw bob bob ⟨1, inrSymbol⟩ ⟨0, inrSymbol⟩ false),
    .system (.signedBy carol 2)
      (.delegatebw carol carol ⟨1, inrSymbol⟩ ⟨0, inrSymbol⟩ false),
    .system (.signedBy alice 3) (.makeprod alice .none [alice]),
    .system (.signedBy bob 3) (.makeprod bob .none [bob]),
    .system (.signedBy carol 3) (.makeprod carol .none [carol]),
    .system (.signedBy bob 4) (.regproxy bob true),
    .system (.signedBy alice 62899200) (.makeprod alice bob []),
    .system (.signedBy bob 62899201)
      (.undelegatebw bob bob ⟨1, inrSymbol⟩ ⟨0, inrSymbol⟩),
    .system (.signedBy alice 62899202) (.makeprod alice .none [alice])]

/-- While bob is registered his -1 votes are in nobody's way. -/
theorem schedule_top_of_vote_sample : ∃ (c c' : Chain)
    (schedule : List ProducerAuthority),
    c'.sys.proposed = c.sys.proposed ++ [schedule] ∧
    schedule.map (·.producerName) = [carol, alice] ∧
    TopOfVote followingEvents c.sys.election schedule := by
  have hsample : Finishes (followingEvents.foldlM (Chain.exec checkedEnv)
      (.genesis checkedEnv)) (fun c =>
        c.sys.election.Unblocked ∧
        c.sys.election.schedule.map (·.producerName) = [carol, alice] ∧
        Finishes (Chain.exec checkedEnv c
          (.system (.signedBy systemAccount 62899204)
            (.onblock 62899204 alice)))
          (fun c' => c'.sys.proposed =
            c.sys.proposed ++ [c.sys.election.schedule])) := by
    decide +kernel
  obtain ⟨c, hrun, hunblocked, hnames, c', hstep, hproposed⟩ := hsample
  exact ⟨c, c', _, hproposed, hnames,
    (schedule_top_of_vote checkedEnv_valid (Run.of_foldlM hrun) hstep
      hproposed).mpr (.inl hunblocked)⟩

/-- **A candidate can be left out**: bob unregisters with -1 votes, and his row
stops the loop before it gets to carol, who is active and has a vote. -/
theorem candidate_left_out :
    (∀ auth, checkedEnv.authorityIsValid auth = true → auth.threshold ≠ 0) ∧
    ∃ (es : List Event) (c c' : Chain) (schedule : List ProducerAuthority),
    Run (Chain.Step checkedEnv) (.genesis checkedEnv) es c ∧
    Chain.Step checkedEnv c (.system (.signedBy systemAccount 62899204)
      (.onblock 62899204 alice)) c' ∧
    c'.sys.proposed = c.sys.proposed ++ [schedule] ∧
    schedule.map (·.producerName) = [alice] ∧
    ¬ TopOfVote es c.sys.election schedule := by
  have hsample : Finishes ((followingEvents ++
      [Event.system (.signedBy bob 62899203) (.unregprod bob)]).foldlM
      (Chain.exec checkedEnv) (.genesis checkedEnv)) (fun c =>
        c.sys.election.countCandidates = 2 ∧
        (∃ q ∈ c.sys.election.producers.rows, q.Candidate ∧ q.owner = carol) ∧
        c.sys.election.schedule.map (·.producerName) = [alice] ∧
        Finishes (Chain.exec checkedEnv c
          (.system (.signedBy systemAccount 62899204)
            (.onblock 62899204 alice)))
          (fun c' => c'.sys.proposed =
            c.sys.proposed ++ [c.sys.election.schedule])) := by
    decide +kernel
  obtain ⟨c, hrun, hcount, ⟨q, hq, hcand, howner⟩, hnames, c', hstep,
    hproposed⟩ := hsample
  refine ⟨checkedEnv_valid, _, c, c', _, Run.of_foldlM hrun, hstep, hproposed,
    hnames, fun htop => ?_⟩
  have hmem := htop.complete (by omega) q hq hcand
  rw [hnames, howner] at hmem
  exact absurd hmem (by decide)

end Inery
