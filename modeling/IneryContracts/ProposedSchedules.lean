import IneryContracts.ElectedProducers
import IneryContracts.HostFrames
import IneryContracts.MemoryConservation

/-!
# The schedules proposed along a run

Only a block proposes schedules.  The guard against a schedule shorter than the
last one compares with a size that no action writes, so it never stops one; the
order inside a schedule is that of votes cut to sixteen bits.  Both are as they
should be exactly where the votes themselves see to it.
-/

namespace Inery

open GuardedStep LabelledRun

/-! ## Sizes -/

namespace Election

/-- How many producers the loop would find if it did not end at 101. -/
def countElectable (e : Election) : ℕ :=
  e.producers.rows.countP (fun p => decide (e.Electable p))

theorem length_topProducers (e : Election) :
    (System.topProducers e).length = min 101 e.countElectable := by
  rw [topProducers_eq, List.length_map, length_elected]
  rfl

theorem length_schedule (e : Election) :
    e.schedule.length = min 101 e.countElectable := by
  unfold schedule
  rw [List.length_map, List.length_insertionSort, length_topProducers]

end Election

namespace SysState

/-- Of the schedules handed to the host, those it has accepted never get
shorter; `accepts n` says that it has accepted the one with number `n`. -/
def NeverShrinks (accepts : ℕ → Prop) (s : SysState) : Prop :=
  ∀ i j x y, i < j → s.proposed[i]? = some x → s.proposed[j]? = some y →
    accepts i → accepts j → x.length ≤ y.length

/-- No size of a schedule is stored, and none is longer than the loop makes
it. -/
def Unsized (s : SysState) : Prop :=
  s.lastProducerScheduleSize = 0 ∧ ∀ x ∈ s.proposed, x.length ≤ 101

/-- No accepted schedule is longer than the producers that can be elected. -/
def Covers (accepts : ℕ → Prop) (s : SysState) : Prop :=
  ∀ i x, s.proposed[i]? = some x → accepts i →
    x.length ≤ s.election.countElectable

end SysState

/-- A block that is due to propose a schedule which is accepted finds at least
as many producers as any accepted schedule has. -/
def Event.KeepsSize (accepts : ℕ → Prop) (c : Chain) : Event → Prop
  | .system _ (.onblock timestamp _) =>
      c.sys.election.threshActivatedStakeTime ≠ 0 →
      timestamp - c.sys.lastProducerScheduleUpdate > 1 →
      c.sys.election.countElectable ≠ 0 → accepts c.sys.proposed.length →
      c.sys.Covers accepts
  | _ => True

/-- One more schedule. -/
theorem SysState.neverShrinks_append {accepts : ℕ → Prop} {s s' : SysState}
    {x : List ProducerAuthority} (h : s.NeverShrinks accepts)
    (hs' : s'.proposed = s.proposed ++ [x]) :
    s'.NeverShrinks accepts ↔ (accepts s.proposed.length →
      ∀ i y, s.proposed[i]? = some y → accepts i → y.length ≤ x.length) := by
  unfold NeverShrinks at h ⊢
  rw [hs']
  constructor
  · intro h' hlast i y hy hi
    have hlt : i < s.proposed.length := (List.getElem?_eq_some_iff.mp hy).1
    refine h' i s.proposed.length y x hlt ?_ ?_ hi hlast
    · rw [List.getElem?_append_left hlt, hy]
    · simp
  · intro h' i j y z hij hy hz hi hj
    have hle : j ≤ s.proposed.length := by
      have hlt := (List.getElem?_eq_some_iff.mp hz).1
      rw [List.length_append, List.length_singleton] at hlt
      omega
    rw [List.getElem?_append_left (by omega)] at hy
    rcases hle.eq_or_lt with rfl | hlt
    · rw [List.getElem?_concat_length] at hz
      cases hz
      exact h' hj i y hy hi
    · rw [List.getElem?_append_left hlt] at hz
      exact h i j y z hij hy hz hi hj

namespace System

variable {env : Env} {ctx : Ctx} {t : TokenState} {s s' : SysState}

/-- **Nothing but a block proposes a schedule**, and nothing at all stores its
size. -/
theorem apply_schedule {a : SysAction} (h : apply env ctx t s a = .ok s')
    (ha : ∀ timestamp producer, a ≠ .onblock timestamp producer) :
    s'.lastProducerScheduleSize = s.lastProducerScheduleSize ∧
      s'.proposed = s.proposed := by
  have haside : a.Aside →
      s'.lastProducerScheduleSize = s.lastProducerScheduleSize ∧
        s'.proposed = s.proposed := by
    intro haside
    have hsame := apply_aside haside h
    exact ⟨hsame.lastProducerScheduleSize, hsame.proposed⟩
  cases a with
  | onblock timestamp producer => exact absurd rfl (ha timestamp producer)
  | regproducer producer key url location =>
      simp only [apply, regproducer, bind_eq_ok] at h
      obtain ⟨_, _, _, _, h⟩ := h
      obtain ⟨_, _, _, _, _, rfl⟩ := registerProducer_ok h
      exact ⟨rfl, rfl⟩
  | regproducer2 producer auth url location =>
      simp only [apply, regproducer2, bind_eq_ok] at h
      obtain ⟨_, _, _, _, _, _, h⟩ := h
      obtain ⟨_, _, _, _, _, rfl⟩ := registerProducer_ok h
      exact ⟨rfl, rfl⟩
  | unregprod producer =>
      obtain ⟨_, _, _, _, _, rfl, _⟩ := unregprod_ok h
      exact ⟨rfl, rfl⟩
  | rmvproducer producer =>
      obtain ⟨_, _, _, rfl, _⟩ := rmvproducer_ok h
      exact ⟨rfl, rfl⟩
  | makeprod voter proxy producers =>
      obtain ⟨_, _, _, _, _, _, _, _, rfl, _⟩ := makeprod_ok h
      exact ⟨rfl, rfl⟩
  | claimrewards owner =>
      obtain ⟨_, _, _, rfl⟩ := claimrewards_writes h
      exact ⟨rfl, rfl⟩
  | setinflation rate payFactor voteFactor =>
      simp only [apply, setinflation, bind_eq_ok, pure_eq_ok] at h
      obtain ⟨_, _, _, _, _, _, _, _, rfl⟩ := h
      exact ⟨rfl, rfl⟩
  | _ => exact haside trivial

end System

namespace Chain

variable {env : Env} {c c' : Chain} {e : Event}

/-- **A step hands at most one schedule to the host**, the one of the election
before it, in a block that is due. -/
theorem step_schedule (h : Step env c e c') :
    c'.sys.lastProducerScheduleSize = c.sys.lastProducerScheduleSize ∧
    (c'.sys.proposed = c.sys.proposed ∧
      (∀ ctx timestamp producer, e = .system ctx (.onblock timestamp producer) →
        ¬ System.UpdatesSchedule c.sys timestamp) ∨
    ∃ ctx timestamp producer, e = .system ctx (.onblock timestamp producer) ∧
      System.UpdatesSchedule c.sys timestamp ∧
      c'.sys.proposed = c.sys.proposed ++ [c.sys.election.schedule]) := by
  obtain ⟨_, _, ⟨_, _, rfl, hsys, _⟩ | ⟨ctx, a, s, rfl, happly, _, hsys⟩ |
    ⟨slot, isAccount, owner, rfl, ⟨s, happly, _, hsys⟩ | ⟨_, hsys⟩⟩⟩ :=
    step_cases h
  · rw [hsys]
    exact ⟨rfl, .inl ⟨rfl, by simp⟩⟩
  · rw [hsys]
    dsimp only
    by_cases hblock : ∃ timestamp producer, a = .onblock timestamp producer
    · obtain ⟨timestamp, producer, rfl⟩ := hblock
      obtain ⟨hsize, hproposed⟩ := System.onblock_proposed happly
      refine ⟨hsize, ?_⟩
      by_cases hdue : System.UpdatesSchedule c.sys timestamp
      · rw [if_pos hdue] at hproposed
        exact .inr ⟨ctx, timestamp, producer, rfl, hdue, hproposed⟩
      · rw [if_neg hdue] at hproposed
        refine .inl ⟨hproposed, ?_⟩
        rintro _ _ _ heq
        cases heq
        exact hdue
    · obtain ⟨hsize, hproposed⟩ := System.apply_schedule happly
        (fun timestamp producer heq => hblock ⟨timestamp, producer, heq⟩)
      refine ⟨hsize, .inl ⟨hproposed, ?_⟩⟩
      rintro _ timestamp producer heq
      cases heq
      exact absurd ⟨timestamp, producer, rfl⟩ hblock
  · obtain ⟨_, _, _, _, _, rfl⟩ := System.refund_ok happly
    rw [hsys]
    exact ⟨rfl, .inl ⟨rfl, by simp⟩⟩
  · rw [hsys]
    exact ⟨rfl, .inl ⟨rfl, by simp⟩⟩

/-- A step stores no size of a schedule. -/
theorem step_unsized (h : Step env c e c') (hc : c.sys.Unsized) :
    c'.sys.Unsized := by
  obtain ⟨hsize, ⟨hproposed, _⟩ | ⟨_, _, _, _, _, hproposed⟩⟩ :=
    step_schedule h
  · refine ⟨hsize.trans hc.1, ?_⟩
    rw [hproposed]
    exact hc.2
  · refine ⟨hsize.trans hc.1, fun x hx => ?_⟩
    rw [hproposed, List.mem_append, List.mem_singleton] at hx
    rcases hx with hx | rfl
    · exact hc.2 x hx
    · rw [Election.length_schedule]
      omega

/-- As long as no size is stored, a due block proposes whenever there is
somebody to elect. -/
private theorem updatesSchedule_iff {s : SysState} {timestamp : UInt32}
    (hs : s.lastProducerScheduleSize = 0) :
    System.UpdatesSchedule s timestamp ↔
      s.election.threshActivatedStakeTime ≠ 0 ∧
      timestamp - s.lastProducerScheduleUpdate > 1 ∧
      s.election.countElectable ≠ 0 := by
  unfold System.UpdatesSchedule
  rw [hs, Election.length_topProducers]
  have hnone : ¬ min 101 s.election.countElectable < 0 := by omega
  have hsome : min 101 s.election.countElectable ≠ 0 ↔
      s.election.countElectable ≠ 0 := by omega
  rw [hsome]
  exact and_congr_right fun _ => and_congr_right fun _ =>
    and_iff_left hnone

/-- One step keeps the schedules from shrinking exactly when a due block finds
enough producers. -/
theorem step_neverShrinks {accepts : ℕ → Prop} (h : Step env c e c')
    (hc : c.sys.Unsized) (hgrow : c.sys.NeverShrinks accepts) :
    c'.sys.NeverShrinks accepts ↔ e.KeepsSize accepts c := by
  obtain ⟨_, ⟨hproposed, hnot⟩ | ⟨ctx, timestamp, producer, rfl, hdue,
    hproposed⟩⟩ := step_schedule h
  · have hsame : c'.sys.NeverShrinks accepts := by
      unfold SysState.NeverShrinks
      rw [hproposed]
      exact hgrow
    refine iff_of_true hsame ?_
    cases e with
    | system ctx a =>
        cases a with
        | onblock timestamp producer =>
            have hidle := hnot ctx timestamp producer rfl
            rw [updatesSchedule_iff hc.1] at hidle
            exact fun hthresh hslot hsome _ =>
              absurd ⟨hthresh, hslot, hsome⟩ hidle
        | _ => trivial
    | _ => trivial
  · rw [SysState.neverShrinks_append hgrow hproposed, Election.length_schedule]
    obtain ⟨hthresh, hslot, hsome⟩ := (updatesSchedule_iff hc.1).mp hdue
    constructor
    · intro h' _ _ _ hlast i x hx hi
      exact (h' hlast i x hx hi).trans (min_le_right _ _)
    · intro h' hlast i x hx hi
      refine le_min (hc.2 x (List.mem_of_getElem? hx)) ?_
      exact h' hthresh hslot hsome hlast i x hx hi
end Chain

/-- **Where proposed schedules never shrink.**  Whichever schedules the host
accepts, a run from empty tables passes only through states in which the
accepted ones have not got shorter, exactly when every block that is due to
propose one which is accepted finds as many electable producers as any
accepted one has. -/
theorem schedules_never_shrink {env : Env} {accepts : ℕ → Prop}
    {es : List Event} {c : Chain} :
    RunThrough (Chain.Step env) (fun d : Chain => d.sys.NeverShrinks accepts)
        (.genesis env) es c ↔
      RunWhile (Chain.Step env) (fun _ (d : Chain) e => e.KeepsSize accepts d)
        (.genesis env) es c := by
  refine runThrough_iff (J := fun d : Chain => d.sys.Unsized) ?_ ?_ ?_ ?_
  · intro d e d' hd hstep
    exact Chain.step_unsized hstep hd
  · intro d e d' hd hgrow hstep
    exact Chain.step_neverShrinks hstep hd hgrow
  · exact ⟨rfl, fun x hx => absurd hx List.not_mem_nil⟩
  · rintro i j x y _ hx
    exact absurd (List.mem_of_getElem? hx) List.not_mem_nil

/-- Alice and bob produce, and bob unregisters. -/
def shrinkingEvents : List Event :=
  [.system (.signedBy alice 2) (.regproducer alice {} "" 0),
    .system (.signedBy bob 2) (.regproducer bob {} "" 0),
    .system (.signedBy alice 2)
      (.delegatebw alice alice ⟨5000, inrSymbol⟩ ⟨5000, inrSymbol⟩ false),
    .system (.signedBy bob 2)
      (.delegatebw bob bob ⟨5000, inrSymbol⟩ ⟨5000, inrSymbol⟩ false),
    .system (.signedBy alice 3) (.makeprod alice .none [alice]),
    .system (.signedBy bob 3) (.makeprod bob .none [bob]),
    .system (.signedBy systemAccount 4) (.onblock 4 alice),
    .system (.signedBy bob 5) (.unregprod bob),
    .system (.signedBy systemAccount 6) (.onblock 6 alice)]

/-- **A schedule can collapse to one producer**, because the size that the guard
compares with is never stored. -/
theorem schedule_shrinks : ∃ c : Chain, Chain.Reachable sampleEnv c ∧
    c.sys.proposed.map List.length = [2, 1] ∧
    ¬ c.sys.NeverShrinks (fun _ => True) := by
  have hsample : SampleRun shrinkingEvents
      (fun _ c => c.sys.proposed.map List.length = [2, 1]) := by
    decide +kernel
  obtain ⟨_, c, hreach, hsizes⟩ := hsample.reachable
  refine ⟨c, hreach, hsizes, fun hgrow => ?_⟩
  obtain ⟨x, rest, hcons, hx, hrest⟩ := List.map_eq_cons_iff.mp hsizes
  obtain ⟨y, last, rfl, hy, _⟩ := List.map_eq_cons_iff.mp hrest
  have hle := hgrow 0 1 x y (by omega) (by simp [hcons]) (by simp [hcons])
    trivial trivial
  omega

/-! ## Order -/

namespace Election

variable {e : Election} {p q : ProducerInfo}

/-- At most 101 rows, all of them candidates, go up to this one in the index. -/
def Leads (e : Election) (p : ProducerInfo) : Prop :=
  e.Electable p ∧
    e.producers.rows.countP (fun q => decide (q.Precedes p)) ≤ 101

instance : DecidablePred e.Leads := fun _ =>
  inferInstanceAs (Decidable (_ ∧ _))

/-- Producers with fewer votes come before those with more. -/
def OrderedByVotes (e : Election) (schedule : List ProducerAuthority) : Prop :=
  ∀ p ∈ e.producers.rows, ∀ q ∈ e.producers.rows,
    p.owner ∈ schedule.map (·.producerName) →
    q.owner ∈ schedule.map (·.producerName) →
    p.totalVotes < q.totalVotes →
    [p.owner, q.owner].Sublist (schedule.map (·.producerName))

instance : DecidablePred e.OrderedByVotes := fun _ =>
  inferInstanceAs (Decidable (∀ _ ∈ _, ∀ _ ∈ _, _))

/-- Cut to sixteen bits, the whole votes of the leading producers are still in
the order of their votes; a weight from 2^32 on is cut to nothing. -/
def KeysFollowVotes (e : Election) : Prop :=
  ∀ p ∈ e.producers.rows, ∀ q ∈ e.producers.rows, e.Leads p → e.Leads q →
    p.totalVotes < q.totalVotes →
    q.totalVotes < 2 ^ 32 ∧
      ⌊p.totalVotes⌋ % 2 ^ 16 < ⌊q.totalVotes⌋ % 2 ^ 16

instance : Decidable e.KeysFollowVotes :=
  inferInstanceAs (Decidable (∀ _ ∈ _, ∀ _ ∈ _, _))

/-- A schedule that a sort by keys can leave, whatever it does with equal
keys. -/
def Arranges (e : Election) (schedule : List ProducerAuthority) : Prop :=
  ∃ l : List (ProducerAuthority × ℕ), l.Perm (System.topProducers e) ∧
    l.Pairwise (fun a b => a.2 ≤ b.2) ∧ schedule = l.map (·.1)

private theorem scheduleKey_lt_iff {x y : ℚ} (hx : 0 < x) (hxy : x < y) :
    System.scheduleKey x < System.scheduleKey y ↔
      y < 2 ^ 32 ∧ ⌊x⌋ % 2 ^ 16 < ⌊y⌋ % 2 ^ 16 := by
  unfold System.scheduleKey
  by_cases hy : y < 2 ^ 32
  · have hxnat := Int.toNat_of_nonneg (Int.floor_nonneg.mpr hx.le)
    have hynat := Int.toNat_of_nonneg (Int.floor_nonneg.mpr (hx.trans hxy).le)
    rw [if_pos (hxy.trans hy), if_pos hy, MachineInt.truncate_of_nonneg hx.le,
      MachineInt.truncate_of_nonneg (hx.trans hxy).le]
    simp only [hy, true_and]
    omega
  · simp [hy]

/-- The entry of the loop for a row. -/
private def entry (p : ProducerInfo) : ProducerAuthority × ℕ :=
  (⟨p.owner, p.getProducerAuthority⟩, System.scheduleKey p.totalVotes)

theorem names_eq (l : List (ProducerAuthority × ℕ)) :
    (l.map (·.1)).map (·.producerName) = l.map (·.1.producerName) := by
  rw [List.map_map]
  rfl

theorem names_perm {l : List (ProducerAuthority × ℕ)}
    (hl : l.Perm (System.topProducers e)) :
    (l.map (·.1.producerName)).Perm (e.elected.map (·.owner)) := by
  have hmap := hl.map (·.1.producerName)
  rw [topProducers_eq, List.map_map] at hmap
  exact hmap

/-- The names in a schedule are those of the leading producers. -/
private theorem leads_iff {l : List (ProducerAuthority × ℕ)}
    (hl : l.Perm (System.topProducers e)) (hp : p ∈ e.producers.rows) :
    p.owner ∈ l.map (·.1.producerName) ↔ e.Leads p := by
  rw [(names_perm hl).mem_iff, List.mem_map]
  constructor
  · rintro ⟨p', hp', howner⟩
    rw [← List.inj_on_of_nodup_map e.producers.nodup (mem_elected hp').1 hp
      howner]
    exact (mem_elected_iff.mp hp').2
  · intro hlead
    exact ⟨p, mem_elected_iff.mpr ⟨hp, hlead⟩, rfl⟩

private theorem entry_mem {l : List (ProducerAuthority × ℕ)}
    (hl : l.Perm (System.topProducers e)) (hp : p ∈ e.elected) :
    entry p ∈ l := by
  rw [hl.mem_iff, topProducers_eq]
  exact List.mem_map.mpr ⟨p, hp, rfl⟩

/-- Where the keys follow the votes, every sort by them does. -/
theorem KeysFollowVotes.ordered (h : e.KeysFollowVotes)
    {schedule : List ProducerAuthority} (hsched : e.Arranges schedule) :
    e.OrderedByVotes schedule := by
  obtain ⟨l, hl, hsorted, rfl⟩ := hsched
  intro p hp q hq
  rw [names_eq, leads_iff hl hp, leads_iff hl hq]
  intro hlead hlead' hlt
  have hp' := mem_elected_iff.mpr ⟨hp, hlead⟩
  have hq' := mem_elected_iff.mpr ⟨hq, hlead'⟩
  have hkeys := (scheduleKey_lt_iff (candidate_of_elected hp').1 hlt).mpr
    (h p hp q hq hlead hlead' hlt)
  have hbefore : [entry p, entry q].Sublist l :=
    SortedScan.pair_sublist_of_not hsorted (entry_mem hl hp') (entry_mem hl hq')
      (Nat.le_refl _) (Nat.not_le_of_lt hkeys)
  exact hbefore.map (·.1.producerName)

theorem arranges_schedule (e : Election) : e.Arranges e.schedule := by
  refine ⟨(System.topProducers e).insertionSort (fun a b => a.2 ≤ b.2),
    List.perm_insertionSort _ _, ?_, rfl⟩
  have htotal : Std.Total
      (fun a b : ProducerAuthority × ℕ => a.2 ≤ b.2) :=
    ⟨fun a b => Nat.le_total a.2 b.2⟩
  have htrans : IsTrans (ProducerAuthority × ℕ) (fun a b => a.2 ≤ b.2) :=
    ⟨fun _ _ _ => Nat.le_trans⟩
  exact List.pairwise_insertionSort _ _

/-- The index has the higher votes first. -/
private theorem elected_before (hp : p ∈ e.elected) (hq : q ∈ e.elected)
    (hlt : p.totalVotes < q.totalVotes) :
    [entry q, entry p].Sublist (System.topProducers e) := by
  have hnot : ¬ p.Precedes q := by
    intro h
    have hle := h.byVotes_le
    rw [(candidate_of_elected hp).byVotes_eq,
      (candidate_of_elected hq).byVotes_eq] at hle
    exact absurd (neg_le_neg_iff.mp hle) (not_le.mpr hlt)
  have hbefore : [q, p].Sublist e.elected :=
    SortedScan.pair_sublist_of_not (elected_sorted e) hq hp (.refl q) hnot
  rw [topProducers_eq]
  exact hbefore.map entry

/-- **Where the schedule is ordered by votes.** -/
theorem ordered_iff (e : Election) :
    e.OrderedByVotes e.schedule ↔ e.KeysFollowVotes := by
  refine ⟨fun h p hp q hq hlead hlead' hlt => ?_,
    fun h => h.ordered (arranges_schedule e)⟩
  have hl := List.perm_insertionSort
    (fun a b : ProducerAuthority × ℕ => a.2 ≤ b.2) (System.topProducers e)
  have hp' := mem_elected_iff.mpr ⟨hp, hlead⟩
  have hq' := mem_elected_iff.mpr ⟨hq, hlead'⟩
  rw [← scheduleKey_lt_iff (candidate_of_elected hp').1 hlt]
  by_contra hkeys
  have hstable : [entry q, entry p].Sublist
      ((System.topProducers e).insertionSort (fun a b => a.2 ≤ b.2)) :=
    SortedScan.sublist_sorted (not_lt.mp hkeys)
      (elected_before hp' hq' hlt)
  have hnames := hstable.map (·.1.producerName)
  have hnodup := ((names_perm hl).nodup_iff).mpr (elected_owners e)
  have hbefore := h p hp q hq
  unfold schedule at hbefore
  rw [names_eq, leads_iff hl hp, leads_iff hl hq] at hbefore
  exact SortedScan.not_sublist_swap hnodup (hbefore hlead hlead' hlt) hnames

end Election

/-- A block that hands a schedule to the host hands it that of the election. -/
theorem Chain.proposes {env : Env} {c c' : Chain} {ctx : Ctx}
    {timestamp : UInt32} {producer : Name} {schedule : List ProducerAuthority}
    (h : Chain.Step env c (.system ctx (.onblock timestamp producer)) c')
    (hproposed : c'.sys.proposed = c.sys.proposed ++ [schedule]) :
    System.UpdatesSchedule c.sys timestamp ∧
      schedule = c.sys.election.schedule := by
  obtain ⟨_, ⟨hsame, _⟩ | ⟨_, _, _, heq, hdue, happend⟩⟩ := step_schedule h
  · rw [hproposed] at hsame
    simp at hsame
  · cases heq
    rw [hproposed] at happend
    exact ⟨hdue, by simpa using happend⟩

/-- **Where the proposed schedule is ordered by votes**: exactly where the
leading producers have their votes in the same order modulo 2^16, and below
2^32.  There any other sort by the same keys is ordered by votes, too. -/
theorem schedule_ordered {env : Env} {c c' : Chain} {ctx : Ctx}
    {timestamp : UInt32} {producer : Name} {schedule : List ProducerAuthority}
    (h : Chain.Step env c (.system ctx (.onblock timestamp producer)) c')
    (hproposed : c'.sys.proposed = c.sys.proposed ++ [schedule]) :
    (c.sys.election.OrderedByVotes schedule ↔
      c.sys.election.KeysFollowVotes) ∧
    (c.sys.election.KeysFollowVotes → ∀ other,
      c.sys.election.Arranges other → c.sys.election.OrderedByVotes other) := by
  obtain ⟨_, rfl⟩ := Chain.proposes h hproposed
  exact ⟨c.sys.election.ordered_iff, fun hkeys _ hother => hkeys.ordered hother⟩

/-- Alice has 10000 votes and bob has `stake`. -/
def rankingEvents (stake : ℤ) : List Event :=
  [.system (.signedBy alice 2) (.regproducer alice {} "" 0),
    .system (.signedBy bob 2) (.regproducer bob {} "" 0),
    .system (.signedBy alice 2)
      (.delegatebw alice alice ⟨5000, inrSymbol⟩ ⟨5000, inrSymbol⟩ false),
    .system (.signedBy bob 2)
      (.delegatebw bob bob ⟨stake, inrSymbol⟩ ⟨0, inrSymbol⟩ false),
    .system (.signedBy alice 3) (.makeprod alice .none [alice]),
    .system (.signedBy bob 3) (.makeprod bob .none [bob])]

/-- With twice the votes of alice, bob comes after her. -/
theorem schedule_ordered_sample : ∃ (c c' : Chain)
    (schedule : List ProducerAuthority),
    Chain.Reachable sampleEnv c ∧
    c'.sys.proposed = c.sys.proposed ++ [schedule] ∧
    schedule.map (·.producerName) = [alice, bob] ∧
    c.sys.election.OrderedByVotes schedule := by
  have hsample : SampleRun (rankingEvents 20000) (fun _ c =>
      c.sys.election.KeysFollowVotes ∧
      c.sys.election.schedule.map (·.producerName) = [alice, bob] ∧
      Finishes (Chain.exec sampleEnv c
        (.system (.signedBy systemAccount 4) (.onblock 4 alice)))
        (fun c' => c'.sys.proposed =
          c.sys.proposed ++ [c.sys.election.schedule])) := by
    decide +kernel
  obtain ⟨_, c, hreach, hkeys, hnames, c', hstep, hproposed⟩ :=
    hsample.reachable
  exact ⟨c, c', _, hreach, hproposed, hnames,
    (schedule_ordered hstep hproposed).1.mpr hkeys⟩

/-- **A schedule out of order**: 70000 votes are sorted as 4464, so that bob
comes before alice, who has 10000. -/
theorem schedule_misordered : ∃ (c c' : Chain)
    (schedule : List ProducerAuthority),
    Chain.Reachable sampleEnv c ∧
    Chain.Step sampleEnv c
      (.system (.signedBy systemAccount 4) (.onblock 4 alice)) c' ∧
    c'.sys.proposed = c.sys.proposed ++ [schedule] ∧
    schedule.map (·.producerName) = [bob, alice] ∧
    ¬ c.sys.election.OrderedByVotes schedule := by
  have hsample : SampleRun (rankingEvents 70000) (fun _ c =>
      c.sys.election.schedule.map (·.producerName) = [bob, alice] ∧
      ¬ c.sys.election.OrderedByVotes c.sys.election.schedule ∧
      Finishes (Chain.exec sampleEnv c
        (.system (.signedBy systemAccount 4) (.onblock 4 alice)))
        (fun c' => c'.sys.proposed =
          c.sys.proposed ++ [c.sys.election.schedule])) := by
    decide +kernel
  obtain ⟨_, c, hreach, hnames, hnot, c', hstep, hproposed⟩ :=
    hsample.reachable
  exact ⟨c, c', _, hreach, hstep, hproposed, hnames, hnot⟩

end Inery
