import Mathlib.Data.Finset.Card
import Mathlib.Logic.Relation

/-!
# Links along which a rank falls

Entries of a store may point at other entries.  Such links never lead back to
where they started exactly if every entry can be given a rank that falls along
each link.  An entry without a link of its own may be pointed at from anywhere
else: `Ranks.attach` finds ranks under which such a link falls, too.  No more
ranks are needed than there are entries to point at: `Ranks.compress`.
-/

namespace RankedLinks

variable {ι : Type} {link link' : ι → ι → Prop} {rank : ι → ℕ} {a b : ι}

/-- The rank falls along every link. -/
def Ranks (rank : ι → ℕ) (link : ι → ι → Prop) : Prop :=
  ∀ x y, link x y → rank y < rank x

theorem Ranks.mono (h : Ranks rank link)
    (hsub : ∀ x y, link' x y → link x y) : Ranks rank link' :=
  fun x y hxy => h x y (hsub x y hxy)

/-- A link from `a` to an entry that points nowhere closes no circle. -/
theorem Ranks.attach [DecidableEq ι] (h : Ranks rank link)
    (hroot : ∀ y, ¬ link b y) (hne : a ≠ b) :
    ∃ rank', Ranks rank' link ∧ rank' b < rank' a := by
  refine ⟨fun x => if x = b then 0 else rank x + 1, fun x y hxy => ?_, ?_⟩
  · have hx : x ≠ b := fun hx => hroot y (hx ▸ hxy)
    have hlt := h x y hxy
    by_cases hy : y = b
    · simp [hx, hy]
    · simp only [if_neg hx, if_neg hy]
      omega
  · simp [hne]

/-- No chain of links leads back. -/
theorem Ranks.acyclic (h : Ranks rank link) (x : ι) :
    ¬ Relation.TransGen link x x := by
  have hfall : ∀ y, Relation.TransGen link x y → rank y < rank x := by
    intro y hxy
    induction hxy with
    | single hlink => exact h _ _ hlink
    | tail _ hlink ih => exact (h _ _ hlink).trans ih
  exact fun hx => (hfall x hx).false

/-- The number of lower entries among those pointed at is a rank, too. -/
theorem Ranks.compress (h : Ranks rank link) (s : Finset ι)
    (hs : ∀ x y, link x y → y ∈ s) :
    ∃ rank', Ranks rank' link ∧ (∀ x, rank' x ≤ s.card) ∧
      ∀ x ∈ s, rank' x < s.card := by
  refine ⟨fun x => (s.filter (rank · < rank x)).card, fun x y hxy => ?_,
    fun x => Finset.card_le_card (Finset.filter_subset _ s),
    fun x hx => Finset.card_lt_card ?_⟩
  · have hlt := h x y hxy
    refine Finset.card_lt_card ((Finset.ssubset_iff_of_subset ?_).mpr
      ⟨y, ?_, ?_⟩)
    · exact Finset.monotone_filter_right s (fun z _ hz => hz.trans hlt)
    · exact Finset.mem_filter.mpr ⟨hs x y hxy, hlt⟩
    · simp
  · exact (Finset.ssubset_iff_of_subset (Finset.filter_subset _ s)).mpr
      ⟨x, hx, by simp⟩

end RankedLinks
