import IneryContracts.ChainMoves

/-!
# Whose authority a move rests on

Every move that stakes, buys, sells or is refunded rests on the authority of
one account, and an event contains such a move only if that account has
authorised it.  The moves also tell what kind of event they belong to; one case
analysis of the events says both.
-/

namespace Inery

open GuardedStep LedgerVector LabelledRun MachineInt

/-- An account signs an action itself; a refund on schedule is nobody's. -/
def Event.TopLevelBy : Event → Name → Prop
  | token ctx _, a => ctx.HasAuth a
  | system ctx _, a => ctx.HasAuth a
  | deferred _ _ _, _ => False

/-- The account whose authority a move rests on. -/
def Move.Signer : Move → Name → Prop
  | .bought payer _ _ _, a => payer = a
  | .sold account _ _, a => account = a
  | .paidOut account _, a => account = a
  | .staked source _ _ _ _ _, a => source = a
  | .refunded owner, a => owner = a
  | .rest, _ | .payroll, _ | .opened, _ | .grown _, _ | .rated, _
  | .created _, _ => False

/-! ## What an event may contain -/

/-- A claim of rewards. -/
def Event.IsClaim : Event → Prop
  | system _ (.claimrewards _) => True
  | _ => False

/-- The opening of the market. -/
def Event.IsInit : Event → Prop
  | system _ (.init _ _) => True
  | _ => False

theorem Event.IsInit.eq_init {e : Event} (h : e.IsInit) :
    ∃ ctx version core, e = .system ctx (.init version core) := by
  cases e with
  | token ctx a => exact h.elim
  | deferred slot isAccount owner => exact h.elim
  | system ctx a =>
      cases a
      case init version core => exact ⟨ctx, version, core, rfl⟩
      all_goals exact h.elim

/-- The refund of the account is called for, or runs on schedule. -/
def Event.Refunds (o : Name) : Event → Prop
  | system _ (.refund owner) => owner = o
  | deferred _ _ owner => owner = o
  | _ => False

/-- A purchase or a sale of memory. -/
def Event.IsTrade : Event → Prop
  | system _ (.buyresources _ _ _) => True
  | system _ (.buymembytes _ _ _) => True
  | system _ (.sellres _ _) => True
  | _ => False

/-- An event that looks after the supply of memory: a trade brings it up to
date, and two actions set its size and its rate. -/
def Event.Grows : Event → Prop
  | system _ (.setmem _) => True
  | system _ (.setmemrate _) => True
  | e => e.IsTrade

/-- Who stakes for another account than its own gives the stake away. -/
def Move.Fair : Move → Prop
  | .staked source owner _ dn dc _ =>
      source = owner ∨ 0 ≤ dn.amount ∧ 0 ≤ dc.amount
  | _ => True

/-- What a move says about an event that contains it: what kind of event it is,
and who has signed it. -/
def Move.Within (e : Event) : Move → Prop
  | .payroll => e.IsClaim
  | .opened => e.IsInit
  | .grown _ | .rated => e.Grows
  | .bought payer _ _ _ => e.IsTrade ∧ e.TopLevelBy payer
  | .sold account _ _ => e.IsTrade ∧ e.TopLevelBy account
  | .paidOut account _ => e.IsTrade ∧ e.TopLevelBy account
  | .staked source owner receiver dn dc ρ => e.TopLevelBy source ∧
      (Move.staked source owner receiver dn dc ρ).Fair
  | .refunded o => e.Refunds o ∧ e.AuthorizedBy o
  | .rest | .created _ => True

/-- **The moves of an event belong to it.** -/
theorem Event.within_of_moves {e : Event} {ms : List Move} (hms : e.Moves ms)
    {m : Move} (hm : m ∈ ms) : m.Within e := by
  have hgrown : ∀ {growth : List Move}, System.MaybeGrown growth → e.Grows →
      m ∈ growth → m.Within e := by
    rintro growth (rfl | ⟨g, rfl⟩) he hm
    · simp at hm
    · rw [List.mem_singleton.mp hm]
      exact he
  cases e with
  | token ctx b => exact hms.elim
  | deferred slot isAccount owner =>
      rcases hms with rfl | rfl
      · rw [List.mem_singleton.mp hm]
        trivial
      · rcases List.mem_pair.mp hm with rfl | rfl
        · trivial
        · exact ⟨rfl, ⟨owner, activePermission⟩, by simp [ctx], rfl⟩
  | system ctx b =>
      cases b
      case buyresources payer receiver quant =>
        obtain ⟨hauth, growth, b, stake, ρ, hgrowth, _, rfl⟩ := hms
        rcases List.mem_append.mp hm with hm | hm
        · exact hgrown hgrowth trivial hm
        · rcases List.mem_pair.mp hm with rfl | rfl
          · exact ⟨trivial, hauth⟩
          · exact ⟨hauth, .inl rfl⟩
      case buymembytes payer receiver size =>
        obtain ⟨hauth, growth, b, price, stake, ρ, ρ', hgrowth, _, _, rfl⟩ :=
          hms
        rcases List.mem_append.mp hm with hm | hm
        · exact hgrown hgrowth trivial hm
        · simp only [List.mem_cons, List.not_mem_nil, or_false] at hm
          rcases hm with rfl | rfl | rfl
          · exact ⟨trivial, hauth⟩
          · exact ⟨hauth, .inl rfl⟩
          · exact ⟨hauth, .inl rfl⟩
      case sellres account size =>
        obtain ⟨hauth, growth, tokens, ρ, hgrowth, rfl⟩ := hms
        rcases List.mem_append.mp hm with hm | hm
        · exact hgrown hgrowth trivial hm
        · simp only [List.mem_cons, List.not_mem_nil, or_false] at hm
          rcases hm with rfl | rfl | rfl
          · exact ⟨trivial, hauth⟩
          · exact ⟨hauth, .inl rfl⟩
          · exact ⟨trivial, hauth⟩
      case setmemrate rate =>
        obtain ⟨growth, hgrowth, rfl⟩ := hms
        rcases List.mem_append.mp hm with hm | hm
        · exact hgrown hgrowth trivial hm
        · rw [List.mem_singleton.mp hm]
          trivial
      case setmem size =>
        obtain ⟨g, rfl⟩ := hms
        rw [List.mem_singleton.mp hm]
        trivial
      case delegatebw from' receiver net cpu transfer =>
        obtain ⟨hauth, _, _, hnet, hcpu, ρ, rfl⟩ := hms
        rw [List.mem_singleton.mp hm]
        exact ⟨hauth, .inr ⟨hnet, hcpu⟩⟩
      case undelegatebw from' receiver net cpu =>
        obtain ⟨hauth, _, ρ, rfl⟩ := hms
        rw [List.mem_singleton.mp hm]
        exact ⟨hauth, .inl rfl⟩
      case refund owner =>
        obtain ⟨hauth, rfl⟩ := hms
        rw [List.mem_singleton.mp hm]
        exact ⟨rfl, hauth⟩
      all_goals
        simp only [Event.Moves, System.MovesOf] at hms
        subst hms
        rw [List.mem_singleton.mp hm]
        trivial

/-! ## Who has signed -/

theorem Event.TopLevelBy.authorizedBy {e : Event} {a : Name}
    (h : e.TopLevelBy a) : e.AuthorizedBy a := by
  cases e with
  | token ctx b => exact h
  | system ctx b => exact h
  | deferred slot isAccount owner => exact h.elim

/-- The signer of a move has signed the event, or the move is the payment of
its refund. -/
private theorem Move.Within.signed {e : Event} {m : Move} (h : m.Within e)
    {a : Name} (ha : m.Signer a) : e.TopLevelBy a ∨ m = .refunded a := by
  cases m with
  | bought payer receiver quant bytes =>
      exact .inl ((show payer = a from ha) ▸ h.2)
  | sold account bytes tokens =>
      exact .inl ((show account = a from ha) ▸ h.2)
  | paidOut account tokens => exact .inl ((show account = a from ha) ▸ h.2)
  | staked source owner receiver dn dc ρ =>
      exact .inl ((show source = a from ha) ▸ h.1)
  | refunded owner => exact .inr (by rw [show owner = a from ha])
  | _ => exact ha.elim

/-- The signer of a move has authorised the event. -/
theorem Event.authorizedBy_of_signer {e : Event} {ms : List Move}
    (hms : e.Moves ms) {m : Move} (hm : m ∈ ms) {a : Name}
    (ha : m.Signer a) : e.AuthorizedBy a := by
  have hwithin := within_of_moves hms hm
  rcases hwithin.signed ha with htop | rfl
  · exact htop.authorizedBy
  · exact hwithin.2

/-- A move signed by an account that signs no action of its own is the payment
of its refund. -/
theorem Event.refunded_of_signer {e : Event} {ms : List Move}
    (hms : e.Moves ms) {m : Move} (hm : m ∈ ms) {a : Name}
    (ha : m.Signer a) (htop : ¬ e.TopLevelBy a) : m = .refunded a :=
  ((within_of_moves hms hm).signed ha).resolve_left htop

/-! ## Where a move belongs -/

/-- Producers are paid in claims, the market opens in `init` and a refund is
paid in a refund; the other moves may be part of any event. -/
def Move.PartOf (e : Event) : Move → Prop
  | .payroll => e.IsClaim
  | .opened => e.IsInit
  | .refunded o => e.Refunds o
  | _ => True

theorem Event.partOf_of_moves {e : Event} {ms : List Move} (hms : e.Moves ms)
    {m : Move} (hm : m ∈ ms) : m.PartOf e := by
  have hwithin := within_of_moves hms hm
  cases m with
  | payroll => exact hwithin
  | opened => exact hwithin
  | refunded o => exact hwithin.1
  | _ => trivial

/-- The moves of an event are fair. -/
theorem Event.fair_of_moves {e : Event} {ms : List Move} (hms : e.Moves ms)
    {m : Move} (hm : m ∈ ms) : m.Fair := by
  have hwithin := within_of_moves hms hm
  cases m with
  | staked source owner receiver dn dc ρ => exact hwithin.2
  | _ => trivial

end Inery
