import IneryContracts.KeyedTable
import IneryContracts.LabelledRun
import Mathlib.Data.List.Perm.Basic

/-!
# Messages in flight

A sender hands messages to a host.  The host keeps each of them under its key,
refuses a key that is in use, and delivers a message once it is due or drops
it.  Whatever the sender does, a run loses no message and makes none up, and of
two messages with one key the first has left before the second is sent.
-/

namespace MessageOutbox

open LabelledRun

/-- What is handed over, the key it is kept under, and when it is due. -/
structure Message (K V : Type) where
  key : K
  due : ℤ
  body : V
deriving DecidableEq

/-- A sender and its messages in flight. -/
structure World (σ K V : Type) where
  sender : σ
  pending : KeyedTable (@Message.key K V)

/-- An action of the sender, with the message it hands over if it does, and
what the host does with a message. -/
inductive Label (ε K V : Type)
  | quiet (e : ε)
  | sent (e : ε) (m : Message K V)
  | delivered (now : ℤ) (m : Message K V)
  | dropped (m : Message K V)

variable {σ ε K V : Type}

/-- A step of the sender or of the host. -/
def Step [DecidableEq K] (send : σ → ε → σ → Option (Message K V) → Prop)
    (w : World σ K V) : Label ε K V → World σ K V → Prop
  | .quiet e, w' =>
      send w.sender e w'.sender none ∧ w'.pending = w.pending
  | .sent e m, w' =>
      send w.sender e w'.sender (some m) ∧ w.pending.find m.key = none ∧
        w'.pending = w.pending.put m
  | .delivered now m, w' =>
      w.pending.find m.key = some m ∧ m.due ≤ now ∧
        w' = { w with pending := w.pending.erase m.key }
  | .dropped m, w' =>
      w.pending.find m.key = some m ∧
        w' = { w with pending := w.pending.erase m.key }

namespace Label

/-- The action of the sender. -/
def act : Label ε K V → Option ε
  | quiet e => some e
  | sent e _ => some e
  | _ => none

/-- The message handed over. -/
def sends : Label ε K V → List (Message K V)
  | sent _ m => [m]
  | _ => []

/-- The message that leaves the host. -/
def takes : Label ε K V → List (Message K V)
  | delivered _ m => [m]
  | dropped m => [m]
  | _ => []

end Label

/-- The actions of the sender, in order. -/
def acts (ls : List (Label ε K V)) : List ε := ls.filterMap Label.act

/-- The messages handed over, in order. -/
def sends (ls : List (Label ε K V)) : List (Message K V) :=
  ls.flatMap Label.sends

/-- The messages that have left, in order. -/
def takes (ls : List (Label ε K V)) : List (Message K V) :=
  ls.flatMap Label.takes

theorem sends_snoc (ls : List (Label ε K V)) (l : Label ε K V) :
    sends (ls ++ [l]) = sends ls ++ l.sends := by
  rw [sends, sends, List.flatMap_append, List.flatMap_singleton]

theorem takes_snoc (ls : List (Label ε K V)) (l : Label ε K V) :
    takes (ls ++ [l]) = takes ls ++ l.takes := by
  rw [takes, takes, List.flatMap_append, List.flatMap_singleton]

/-- A message that has been sent has been sent by some label. -/
theorem mem_sends {ls : List (Label ε K V)} {m : Message K V}
    (hm : m ∈ sends ls) :
    ∃ as e bs, ls = as ++ .sent e m :: bs := by
  obtain ⟨l, hl, hsends⟩ := List.mem_flatMap.mp hm
  obtain ⟨as, bs, rfl⟩ := List.append_of_mem hl
  cases l with
  | sent e d =>
      obtain rfl : m = d := List.mem_singleton.mp hsends
      exact ⟨as, e, bs, rfl⟩
  | quiet e => cases hsends
  | delivered now d => cases hsends
  | dropped d => cases hsends

/-- The sender alone. -/
def Acts (send : σ → ε → σ → Option (Message K V) → Prop) (s : σ) (e : ε)
    (s' : σ) : Prop := ∃ o, send s e s' o

variable [DecidableEq K] {send : σ → ε → σ → Option (Message K V) → Prop}
  {w w' : World σ K V} {l : Label ε K V} {ls : List (Label ε K V)}
  {m : Message K V}

/-- **A run of the sender and the host is a run of the sender.** -/
theorem run_acts (h : Run (Step send) w ls w') :
    Run (Acts send) w.sender (acts ls) w'.sender := by
  induction h with
  | nil => exact .nil _
  | @snoc u v ls l init last ih =>
      rw [acts, List.filterMap_append]
      refine ih.append ?_
      cases l with
      | quiet e => exact .single ⟨none, last.1⟩
      | sent e m => exact .single ⟨some m, last.1⟩
      | delivered now m =>
          obtain ⟨_, _, rfl⟩ := last
          exact .nil _
      | dropped m =>
          obtain ⟨_, rfl⟩ := last
          exact .nil _

/-- A run of the sender that hands nothing over. -/
theorem run_quiet {s t : σ} {es : List ε}
    (h : Run (fun s e t => send s e t none) s es t)
    (pending : KeyedTable (@Message.key K V)) :
    Run (Step send) ⟨s, pending⟩ (es.map .quiet) ⟨t, pending⟩ := by
  induction h with
  | nil => exact .nil _
  | snoc init last ih =>
      rw [List.map_append]
      exact ih.append (.single ⟨last, rfl⟩)

/-! ## Nothing lost, nothing made up -/

/-- The books of one step. -/
theorem step_books (h : Step send w l w') :
    (w.pending.rows ++ l.sends).Perm (l.takes ++ w'.pending.rows) := by
  cases l with
  | quiet e =>
      rw [h.2]
      exact List.perm_append_comm
  | sent e m =>
      obtain ⟨_, hnone, hput⟩ := h
      have hrows : w'.pending.rows = m :: w.pending.rows := by
        rw [hput, ← KeyedTable.rows_erase_of_none hnone]
        rfl
      rw [hrows]
      exact List.perm_append_comm
  | delivered now m =>
      obtain ⟨hfind, _, rfl⟩ := h
      exact (List.append_nil _).symm ▸ KeyedTable.rows_perm hfind
  | dropped m =>
      obtain ⟨hfind, rfl⟩ := h
      exact (List.append_nil _).symm ▸ KeyedTable.rows_perm hfind

/-- **Nothing is lost and nothing made up.**  What was in flight and what has
been sent is what has left and what is in flight. -/
theorem run_books (h : Run (Step send) w ls w') :
    (w.pending.rows ++ sends ls).Perm (takes ls ++ w'.pending.rows) := by
  induction h with
  | nil => exact List.perm_append_comm
  | @snoc u v ls l init last ih =>
      rw [sends_snoc, takes_snoc]
      calc w.pending.rows ++ (sends ls ++ l.sends)
          = (w.pending.rows ++ sends ls) ++ l.sends :=
            (List.append_assoc _ _ _).symm
        List.Perm _ ((takes ls ++ u.pending.rows) ++ l.sends) :=
            ih.append_right _
        _ = takes ls ++ (u.pending.rows ++ l.sends) := List.append_assoc _ _ _
        List.Perm _ (takes ls ++ (l.takes ++ v.pending.rows)) :=
            (step_books last).append_left _
        _ = (takes ls ++ l.takes) ++ v.pending.rows :=
            (List.append_assoc _ _ _).symm

/-- What is in flight has been sent, or was in flight from the start. -/
theorem pending_sent (h : Run (Step send) w ls w')
    (hm : m ∈ w'.pending.rows) : m ∈ w.pending.rows ∨ m ∈ sends ls := by
  refine List.mem_append.mp ((run_books h).mem_iff.mpr ?_)
  exact List.mem_append_right _ hm

/-- No more messages of a kind leave than are sent. -/
theorem countP_takes_le (h : Run (Step send) w ls w')
    (hempty : w.pending.rows = []) (p : Message K V → Bool) :
    (takes ls).countP p + w'.pending.rows.countP p = (sends ls).countP p := by
  have hbooks := (run_books h).countP_eq p
  rw [hempty, List.nil_append, List.countP_append] at hbooks
  exact hbooks.symm

/-! ## One message to a key -/

/-- A message in flight stays there unless it leaves. -/
theorem step_kept (h : Step send w l w')
    (hm : w.pending.find m.key = some m) (hleft : m ∉ l.takes) :
    w'.pending.find m.key = some m := by
  have herase : ∀ d : Message K V, w.pending.find d.key = some d → m ≠ d →
      (w.pending.erase d.key).find m.key = some m := by
    intro d hd hne
    have hkey : m.key ≠ d.key := by
      intro hkey
      rw [hkey, hd] at hm
      exact hne (Option.some.inj hm).symm
    rw [KeyedTable.find_erase, if_neg hkey, hm]
  cases l with
  | quiet e => rw [h.2, hm]
  | sent e d =>
      obtain ⟨_, hnone, hput⟩ := h
      have hkey : m.key ≠ d.key := by
        intro hkey
        rw [hkey, hnone] at hm
        cases hm
      rw [hput, KeyedTable.find_put, if_neg hkey, hm]
  | delivered now d =>
      obtain ⟨hd, _, rfl⟩ := h
      exact herase d hd (fun heq => hleft (List.mem_singleton.mpr heq))
  | dropped d =>
      obtain ⟨hd, rfl⟩ := h
      exact herase d hd (fun heq => hleft (List.mem_singleton.mpr heq))

theorem run_kept (h : Run (Step send) w ls w')
    (hm : w.pending.find m.key = some m) (hleft : m ∉ takes ls) :
    w'.pending.find m.key = some m := by
  induction h with
  | nil => exact hm
  | snoc init last ih =>
      rw [takes_snoc, List.mem_append, not_or] at hleft
      exact step_kept last (ih hleft.1) hleft.2

/-- **The first of two messages with one key has left before the second is
sent.** -/
theorem left_between {as bs cs : List (Label ε K V)} {e e' : ε}
    {m' : Message K V}
    (h : Run (Step send) w (as ++ .sent e m :: (bs ++ .sent e' m' :: cs)) w')
    (hkey : m.key = m'.key) : m ∈ takes bs := by
  obtain ⟨u, _, hrest⟩ := h.split
  obtain ⟨v, hsent, hrest⟩ := hrest.uncons
  obtain ⟨x, hbetween, hrest⟩ := hrest.split
  obtain ⟨y, hagain, _⟩ := hrest.uncons
  by_contra hleft
  have hfind : v.pending.find m.key = some m := by
    rw [hsent.2.2, KeyedTable.find_put, if_pos rfl]
  have hkept := run_kept hbetween hfind hleft
  rw [hkey, hagain.2.1] at hkept
  cases hkept

end MessageOutbox
