import IneryContracts.MemoryConservation
import IneryContracts.ProducerStanding

/-!
# The copies of a registration

Whether an account is a registered producer is stored in its row of producers;
the token contract reads a copy of it in the row of activity, and a second flag
says that the account produces blocks.  Registering and unregistering keep the
three together.  Removing a producer forgets the copy, and marking one that
produces asks for no registration: exactly these two break the agreement.
-/

namespace Inery

open GuardedStep LabelledRun

namespace SysState

/-- The account is a registered producer. -/
def Registered (s : SysState) (k : Name) : Prop :=
  ∃ row, s.election.producers.find k = some row ∧ row.isActive = true

/-- The activity that the token contract reads is that of the registered
producers. -/
def Mirrors (s : SysState) : Prop :=
  ∀ k, s.getProdActivity k = true ↔ s.Registered k

/-- Only registered producers are marked as producing. -/
def ProducersRegistered (s : SysState) : Prop :=
  ∀ k row, s.election.producers.find k = some row → row.isProducer = true →
    row.isActive = true

/-- Every producer has a row of activity. -/
def ActivityRows (s : SysState) : Prop :=
  ∀ k, (s.election.producers.find k).isSome → (s.accountsact.find k).isSome

theorem registered_of_find {s : SysState} {k : Name} {row : ProducerInfo}
    (h : s.election.producers.find k = some row) :
    s.Registered k ↔ row.isActive = true := by
  simp [Registered, h]

/-- The registration is a matter of the standing. -/
theorem registered_congr {s s' : SysState} {k : Name}
    (h : (s'.election.producers.find k).map (·.standing) =
      (s.election.producers.find k).map (·.standing)) :
    s'.Registered k ↔ s.Registered k := by
  unfold Registered
  cases hrow : s.election.producers.find k with
  | none =>
      rw [hrow, Option.map_none, Option.map_eq_none_iff] at h
      simp [h]
  | some row =>
      rw [hrow, Option.map_some, Option.map_eq_some_iff] at h
      obtain ⟨row', hrow', hstanding⟩ := h
      have hactive := (ProducerInfo.of_standing hstanding).1
      simp [hrow', hactive]

theorem getProdActivity_eq (s : SysState) (k : Name) :
    s.getProdActivity k =
      ((s.accountsact.find k).map (·.isActiveProd)).getD false := by
  unfold getProdActivity
  cases s.accountsact.find k <;> rfl

end SysState

/-- The rows of activity with the flag set. -/
private theorem flagged_map (o : Option AccountActivity) (value : Bool) :
    ((o.map (AccountActivity.flagged value)).map (·.isActiveProd)).getD
      false = (o.isSome && value) := by
  cases o <;> simp [AccountActivity.flagged]

/-- No registered producer is removed, and none is marked as producing unless
it is registered. -/
def SysAction.KeepsActivity (s : SysState) : SysAction → Prop
  | rmvproducer producer => ¬ s.Registered producer
  | makeprod voter _ _ => s.Registered voter
  | _ => True

/-- Only a registered producer is marked as producing. -/
def SysAction.MarksRegistered (s : SysState) : SysAction → Prop
  | makeprod voter _ _ => s.Registered voter
  | _ => True

/-- An event that keeps the activity of producers up to date. -/
def Event.KeepsActivity (c : Chain) : Event → Prop
  | .system _ a => a.KeepsActivity c.sys
  | _ => True

/-- An event that marks only a registered producer. -/
def Event.MarksRegistered (c : Chain) : Event → Prop
  | .system _ a => a.MarksRegistered c.sys
  | _ => True

/-! ## One step -/

section Steps

variable {env : Env} {ctx : Ctx} {t : TokenState} {s s' : SysState}
  {a : SysAction} {k : Name}

/-- Rows of activity are never taken away. -/
theorem StandingMove.activityRows (h : ∀ k, StandingMove env ctx t s s' a k)
    (hs : s.ActivityRows) : s'.ActivityRows := by
  intro k hk
  cases h k with
  | registered auth row prd action signed valid stored active authority marked
      activity =>
      rw [activity]
      rfl
  | retired old action signed found stored activity =>
      rw [activity, Option.isSome_map]
      exact hs k (Option.isSome_of_mem found)
  | removed old action signed found stored activity =>
      rw [activity]
      exact hs k (Option.isSome_of_mem found)
  | made proxy producers old row action signed collateral found stored standing
      activity =>
      rw [activity, Option.isSome_map]
      exact hs k (Option.isSome_of_mem found)
  | kept unranked standing activity =>
      rw [activity]
      refine hs k ?_
      rwa [← Option.isSome_map, ← standing, Option.isSome_map]

/-- Where the copy of one account stays up to date. -/
private theorem StandingMove.mirrors_at (h : StandingMove env ctx t s s' a k)
    (hrow : (s.election.producers.find k).isSome →
      (s.accountsact.find k).isSome)
    (hs : s.getProdActivity k = true ↔ s.Registered k) :
    (s'.getProdActivity k = true ↔ s'.Registered k) ↔
      (a = .rmvproducer k → ¬ s.Registered k) ∧
      ∀ proxy producers, a = .makeprod k proxy producers → s.Registered k := by
  rw [SysState.getProdActivity_eq] at hs ⊢
  cases h with
  | registered auth row prd action signed valid stored active authority marked
      activity =>
      rw [activity, SysState.registered_of_find stored, active]
      have hnot : (a ≠ .rmvproducer k) ∧
          ∀ proxy producers, a ≠ .makeprod k proxy producers := by
        constructor
        · rintro rfl
          exact action
        · rintro proxy producers rfl
          exact action
      simp [hnot.1, hnot.2, AccountActivity.flagged]
  | retired old action signed found stored activity =>
      rw [activity, flagged_map, SysState.registered_of_find stored]
      simp [action, ProducerInfo.deactivate]
  | removed old action signed found stored activity =>
      rw [activity, hs, SysState.registered_of_find stored]
      simp [action, ProducerInfo.deactivate]
  | made proxy producers old row action signed collateral found stored standing
      activity =>
      have hsome := hrow (Option.isSome_of_mem found)
      have hactive : row.isActive = old.isActive :=
        (ProducerInfo.of_standing standing).1
      rw [activity, flagged_map, hsome, SysState.registered_of_find stored,
        SysState.registered_of_find found, hactive]
      simp [action]
  | kept unranked standing activity =>
      rw [activity, SysState.registered_congr standing]
      have hnot : (a ≠ .rmvproducer k) ∧
          ∀ proxy producers, a ≠ .makeprod k proxy producers := by
        constructor
        · rintro rfl
          exact unranked rfl
        · rintro proxy producers rfl
          exact unranked rfl
      simp [hnot.1, hnot.2, hs]

/-- An action keeps the copies up to date exactly when it is not one of the
two that forget them. -/
theorem StandingMove.mirrors_iff (h : ∀ k, StandingMove env ctx t s s' a k)
    (hrows : s.ActivityRows) (hs : s.Mirrors) :
    s'.Mirrors ↔ a.KeepsActivity s := by
  have hat := fun k => (h k).mirrors_at (hrows k) (hs k)
  constructor
  · intro hs'
    cases a with
    | rmvproducer producer =>
        exact ((hat producer).mp (hs' producer)).1 rfl
    | makeprod voter proxy producers =>
        exact ((hat voter).mp (hs' voter)).2 proxy producers rfl
    | _ => trivial
  · intro ha k
    refine (hat k).mpr ⟨?_, ?_⟩
    · rintro rfl
      exact ha
    · rintro proxy producers rfl
      exact ha

/-- Only marking an account that is not registered breaks the order of the two
flags. -/
theorem StandingMove.producersRegistered_iff
    (h : ∀ k, StandingMove env ctx t s s' a k) (hs : s.ProducersRegistered) :
    s'.ProducersRegistered ↔ a.MarksRegistered s := by
  constructor
  · intro hs'
    cases a with
    | makeprod voter proxy producers =>
        cases h voter with
        | registered _ _ _ action => exact action.elim
        | retired _ action => cases action
        | removed _ action => cases action
        | kept unranked => exact absurd rfl unranked
        | made _ _ old row action signed collateral found stored standing =>
            obtain ⟨hactive, hmarked, _⟩ := ProducerInfo.of_standing standing
            exact ⟨old, found,
              hactive.symm.trans (hs' voter row stored hmarked)⟩
    | _ => trivial
  · intro ha k row' hrow' hmarked
    cases h k with
    | registered auth row prd action signed valid stored active =>
        rw [stored] at hrow'
        cases hrow'
        exact active
    | retired old action signed found stored =>
        rw [stored] at hrow'
        cases hrow'
        cases hmarked
    | removed old action signed found stored =>
        rw [stored] at hrow'
        cases hrow'
        cases hmarked
    | made proxy producers old row action signed collateral found stored
        standing =>
        rw [stored] at hrow'
        cases hrow'
        subst action
        obtain ⟨_, hold, hactive⟩ := ha
        rw [found] at hold
        cases hold
        exact (ProducerInfo.of_standing standing).1.trans hactive
    | kept unranked standing =>
        rw [hrow', Option.map_some] at standing
        obtain ⟨row, hrow, hsame⟩ := Option.map_eq_some_iff.mp standing.symm
        obtain ⟨hactive, hproducer, _⟩ := ProducerInfo.of_standing hsame
        exact hactive.symm.trans (hs k row hrow (hproducer.trans hmarked))

end Steps

/-- **Where the copy of the registration is up to date.**  A run from empty
tables passes only through states in which the activity flag of every account
says whether it is registered, exactly when none of its steps removes a
registered producer or marks an unregistered one as producing. -/
theorem activity_mirrors {env : Env} {es : List Event} {c : Chain} :
    RunThrough (Chain.Step env) (fun d => d.sys.Mirrors) (.genesis env) es c ↔
      RunWhile (Chain.Step env) (fun _ d e => e.KeepsActivity d)
        (.genesis env) es c := by
  refine runThrough_iff (J := fun d => d.sys.ActivityRows) ?_ ?_ ?_ ?_
  · intro d e d' hrows hstep
    rcases Chain.step_standing hstep with ⟨helection, hact, _⟩ |
      ⟨ctx, a, rfl, hmove⟩
    · unfold SysState.ActivityRows
      rw [helection, hact]
      exact hrows
    · exact StandingMove.activityRows hmove hrows
  · intro d e d' hrows hmirrors hstep
    rcases Chain.step_standing hstep with ⟨helection, hact, hne⟩ |
      ⟨ctx, a, rfl, hmove⟩
    · have hsame : d'.sys.Mirrors := by
        intro k
        rw [SysState.getProdActivity_eq, hact, ← SysState.getProdActivity_eq]
        unfold SysState.Registered
        rw [helection]
        exact hmirrors k
      cases e with
      | system ctx a => exact absurd rfl (hne ctx a)
      | token ctx a => exact ⟨fun _ => trivial, fun _ => hsame⟩
      | deferred slot isAccount owner =>
          exact ⟨fun _ => trivial, fun _ => hsame⟩
    · exact StandingMove.mirrors_iff hmove hrows hmirrors
  · intro k hk
    cases hk
  · intro k
    constructor
    · intro hflag
      cases hflag
    · rintro ⟨row, hrow, _⟩
      cases hrow

/-- **Where only registered producers are marked as producing**: along the runs
from empty tables in which nobody is marked without being registered. -/
theorem producers_registered {env : Env} {es : List Event} {c : Chain} :
    RunThrough (Chain.Step env) (fun d => d.sys.ProducersRegistered)
      (.genesis env) es c ↔
      RunWhile (Chain.Step env) (fun _ d e => e.MarksRegistered d)
        (.genesis env) es c := by
  refine runThrough_iff (J := fun _ => True) (fun _ _ _ _ _ => trivial) ?_
    trivial ?_
  · intro d e d' _ hregistered hstep
    rcases Chain.step_standing hstep with ⟨helection, _, hne⟩ |
      ⟨ctx, a, rfl, hmove⟩
    · have hsame : d'.sys.ProducersRegistered := by
        unfold SysState.ProducersRegistered
        rw [helection]
        exact hregistered
      cases e with
      | system ctx a => exact absurd rfl (hne ctx a)
      | token ctx a => exact ⟨fun _ => trivial, fun _ => hsame⟩
      | deferred slot isAccount owner =>
          exact ⟨fun _ => trivial, fun _ => hsame⟩
    · exact StandingMove.producersRegistered_iff hmove hregistered
  · intro k row hrow
    cases hrow

/-- Alice registers and is removed. -/
def removingEvents : List Event :=
  [.system (.signedBy alice 2) (.regproducer alice {} "" 0),
    .system (.signedBy systemAccount 3) (.rmvproducer alice)]

/-- **A removed producer stays locked**: removing alice leaves her activity
set, and the token contract refuses to take her balance below the collateral
although she is not registered any more. -/
theorem removed_stays_locked : ∃ (c : Chain) (row : ProducerInfo),
    Chain.Reachable sampleEnv c ∧
    c.sys.election.producers.find alice = some row ∧ row.isActive = false ∧
    c.sys.getProdActivity alice = true ∧
    Chain.exec sampleEnv c (.token (.signedBy alice 4)
      (.transfer alice bob ⟨1900000000, inrSymbol⟩ "")) = .error (.check
        "You can't withdraw your 50000 INR while you're a producer") := by
  have hsample : SampleRun removingEvents
      (fun _ c => (c.sys.election.producers.find alice).any
          (fun row => row.isActive = false) = true ∧
        c.sys.getProdActivity alice = true ∧
        (Chain.exec sampleEnv c (.token (.signedBy alice 4)
          (.transfer alice bob ⟨1900000000, inrSymbol⟩ ""))).map
            (fun _ => ()) = .error (.check
          "You can't withdraw your 50000 INR while you're a producer")) := by
    decide +kernel
  obtain ⟨_, c, hreach, hany, hactivity, hstop⟩ := hsample.reachable
  obtain ⟨row, hrow, hactive⟩ := (Option.any_eq_true _ _).mp hany
  exact ⟨c, row, hreach, hrow, of_decide_eq_true hactive, hactivity,
    map_eq_error.mp hstop⟩

/-- Alice registers, stakes, unregisters and then asks to produce. -/
def markingEvents : List Event :=
  [.system (.signedBy alice 2) (.regproducer alice {} "" 0),
    .system (.signedBy alice 2)
      (.delegatebw alice alice ⟨100, inrSymbol⟩ ⟨100, inrSymbol⟩ false),
    .system (.signedBy alice 3) (.unregprod alice),
    .system (.signedBy alice 4) (.makeprod alice .none [])]

/-- **An unregistered account can be marked as producing**: an empty list of
producers passes every check of the vote. -/
theorem unregistered_marked : ∃ (c : Chain) (row : ProducerInfo),
    Chain.Reachable sampleEnv c ∧
    c.sys.election.producers.find alice = some row ∧
    row.isProducer = true ∧ row.isActive = false := by
  have hsample : SampleRun markingEvents
      (fun _ c => (c.sys.election.producers.find alice).any
        (fun row => row.isProducer = true ∧ row.isActive = false) = true) := by
    decide +kernel
  obtain ⟨_, c, hreach, hany⟩ := hsample.reachable
  obtain ⟨row, hrow, hflags⟩ := (Option.any_eq_true _ _).mp hany
  exact ⟨c, row, hreach, hrow, of_decide_eq_true hflags⟩

end Inery
