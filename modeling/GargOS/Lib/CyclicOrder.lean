import Mathlib.Data.Finset.Card
import Mathlib.Order.Interval.Finset.Defs
import Mathlib.Data.Int.Interval

/-!
Places on a circle of `m` places, and a pointer that moves from a place to the
next one of a set. In as many moves as the set has places it visits each of
them once, wherever it starts.
-/

namespace CyclicOrder

/-- The place `d` behind `c`. -/
def place (m c d : Int) : Int := (c + d) % m

/-- The first place of the set behind `c` is `d` further; `c` itself comes last. -/
structure Next (m : Int) (live : Finset Int) (c d : Int) : Prop where
  positive : 0 < d
  round : d ≤ m
  found : place m c d ∈ live
  skipped : ∀ e, 0 < e → e < d → place m c e ∉ live

def covered (d : Nat → Int) : Nat → Int
  | 0 => 0
  | k + 1 => covered d k + d k

section Rounds
variable (m : Int) (live : Finset Int) (slot : Nat → Int) (d : Nat → Int) (n : Nat)
  (start : 0 ≤ slot 0 ∧ slot 0 < m) (next : ∀ k < n, Next m live (slot k) (d k))
  (moves : ∀ k < n, slot (k + 1) = place m (slot k) (d k))

include start moves in
theorem slot_place (k : Nat) (bound : k ≤ n) : slot k = place m (slot 0) (covered d k) := by
  induction k with
  | zero =>
      show slot 0 = (slot 0 + 0) % m
      rw [Int.add_zero, Int.emod_eq_of_lt start.1 start.2]
  | succ k ih =>
      rw [moves k (by omega), ih (by omega), place, place, place, covered, Int.emod_add_emod, Int.add_assoc]

include next in
theorem covered_lt (j k : Nat) (before : j < k) (bound : k ≤ n) : covered d j < covered d k := by
  induction k with
  | zero => omega
  | succ k ih =>
      have more := (next k (by omega)).positive
      rw [covered]
      rcases Nat.lt_succ_iff_lt_or_eq.mp before with earlier | rfl
      · have here := ih earlier (by omega)
        omega
      · omega

include start next moves in
theorem covered_visited (k : Nat) (bound : k ≤ n) (e : Int) (behind : 0 < e) (within : e ≤ covered d k)
    (found : place m (slot 0) e ∈ live) : ∃ j < k, covered d (j + 1) = e := by
  induction k with
  | zero =>
      rw [covered] at within
      omega
  | succ k ih =>
      rw [covered] at within
      by_cases earlier : e ≤ covered d k
      · obtain ⟨j, less, same⟩ := ih (by omega) earlier
        exact ⟨j, by omega, same⟩
      · by_cases last : e = covered d k + d k
        · exact ⟨k, Nat.lt_succ_self k, last.symm⟩
        · have gap := (next k (by omega)).skipped (e - covered d k) (by omega) (by omega)
          have here : place m (slot k) (e - covered d k) = place m (slot 0) e := by
            have split : slot 0 + covered d k + (e - covered d k) = slot 0 + e := by omega
            rw [slot_place m slot d n start moves k (by omega), place, place, place, Int.emod_add_emod, split]
          rw [here] at gap
          exact absurd found gap

end Rounds

theorem place_inj (m c e f : Int) (low : 0 < e) (less : e < f) (high : f ≤ m) :
    place m c e ≠ place m c f := by
  intro same
  have equal : (f - e) % m = 0 := by
    have apart := Int.emod_emod_of_dvd (c + f) (dvd_refl m)
    have zero := Int.emod_eq_emod_iff_emod_sub_eq_zero.mp same.symm
    have split : c + f - (c + e) = f - e := by omega
    rwa [split] at zero
  rw [Int.emod_eq_of_lt (by omega) (by omega)] at equal
  omega

/-! How far behind a place another one lies. -/

def distance (m c i : Int) : Int := (i - c - 1) % m + 1

section Distance
variable (m c i : Int) (inside : 0 ≤ i ∧ i < m)
include inside

theorem distance_place : 0 < distance m c i ∧ distance m c i ≤ m ∧ place m c (distance m c i) = i := by
  have positive : 0 < m := by omega
  have low := Int.emod_nonneg (i - c - 1) (Int.ne_of_gt positive)
  have high := Int.emod_lt_of_pos (i - c - 1) positive
  have split : c + ((i - c - 1) % m + 1) = (i - c - 1) % m + (c + 1) := by omega
  have whole : i - c - 1 + (c + 1) = i := by omega
  refine ⟨by unfold distance; omega, by unfold distance; omega, ?_⟩
  rw [place, distance, split, Int.emod_add_emod, whole, Int.emod_eq_of_lt inside.1 inside.2]

theorem place_of : ∃ e, 0 < e ∧ e ≤ m ∧ place m c e = i :=
  ⟨distance m c i, distance_place m c i inside⟩

theorem next_within (live : Finset Int) (d : Int) (next : Next m live c d) (member : i ∈ live) :
    d ≤ distance m c i := by
  obtain ⟨positive, _, here⟩ := distance_place m c i inside
  by_contra passed
  refine next.skipped _ positive (by omega) ?_
  rw [here]
  exact member

theorem distance_moved (d : Int) (positive : 0 < d) (short : d < distance m c i) :
    distance m (place m c d) i = distance m c i - d := by
  have some : 0 < m := by omega
  have low := Int.emod_nonneg (i - c - 1) (Int.ne_of_gt some)
  have high := Int.emod_lt_of_pos (i - c - 1) some
  unfold distance at short ⊢
  have split : i - place m c d - 1 = i - 1 - (c + d) % m := by
    unfold place
    omega
  have shift : i - 1 - (c + d) = i - c - 1 - d := by omega
  rw [split, Int.sub_emod_emod, shift, ← Int.emod_sub_emod, Int.emod_eq_of_lt (by omega) (by omega)]
  omega

end Distance

section Visits
variable (m : Int) (live : Finset Int) (slot : Nat → Int) (d : Nat → Int)
  (start : 0 ≤ slot 0 ∧ slot 0 < m) (next : ∀ k < live.card, Next m live (slot k) (d k))
  (moves : ∀ k < live.card, slot (k + 1) = place m (slot k) (d k))
include start next moves

/-- The moves come by every place of the set: otherwise they would have stopped
at as many places without it. -/
theorem moves_suffice (e : Int) (round : e ≤ m) (found : place m (slot 0) e ∈ live) :
    e ≤ covered d live.card := by
  by_contra short
  have positions := slot_place m slot d live.card start moves
  have increases := covered_lt m live slot d live.card next
  have far : ∀ k, k ≤ live.card → covered d k < e := by
    intro k bound
    rcases Nat.lt_or_eq_of_le bound with less | rfl
    · have more := increases k live.card less (Nat.le_refl _)
      omega
    · omega
  have others : (Finset.range live.card).image (fun k => slot (k + 1)) ⊆
      live.erase (place m (slot 0) e) := by
    intro j stops
    obtain ⟨k, inRange, rfl⟩ := Finset.mem_image.mp stops
    have less := Finset.mem_range.mp inRange
    have positive := increases 0 (k + 1) (Nat.succ_pos k) less
    refine Finset.mem_erase.mpr ⟨?_, ?_⟩
    · rw [positions (k + 1) less]
      exact place_inj m (slot 0) _ e positive (far _ less) round
    · rw [moves k less]
      exact (next k less).found
  have distinct : Set.InjOn (fun k => slot (k + 1)) (Finset.range live.card : Finset Nat) := by
    intro j inRange k inRange' same
    have first := Finset.mem_range.mp inRange
    have second := Finset.mem_range.mp inRange'
    dsimp only at same
    rw [positions (j + 1) first, positions (k + 1) second] at same
    have low := increases 0 (j + 1) (Nat.succ_pos j) first
    have low' := increases 0 (k + 1) (Nat.succ_pos k) second
    have high := far (j + 1) first
    have high' := far (k + 1) second
    rcases Nat.lt_trichotomy j k with before | rfl | behind
    · exact absurd same (place_inj m _ _ _ low (increases _ _ (by omega) second) (by omega))
    · rfl
    · exact absurd same.symm (place_inj m _ _ _ low' (increases _ _ (by omega) first) (by omega))
  have count := Finset.card_le_card others
  rw [Finset.card_image_of_injOn distinct, Finset.card_range, Finset.card_erase_of_mem found] at count
  have some := Finset.card_pos.mpr ⟨_, found⟩
  omega

theorem each_visited (inside : ∀ i ∈ live, 0 ≤ i ∧ i < m) (i : Int) (member : i ∈ live) :
    ∃ k < live.card, slot (k + 1) = i := by
  obtain ⟨e, behind, round, rfl⟩ := place_of m (slot 0) i (inside i member)
  have reached := moves_suffice m live slot d start next moves e round member
  obtain ⟨j, less, same⟩ := covered_visited m live slot d live.card start next moves live.card
    (Nat.le_refl _) e behind reached member
  exact ⟨j, less, by rw [slot_place m slot d live.card start moves (j + 1) less, same]⟩

end Visits

/-- As many moves as the set has places visit each of them exactly once. -/
theorem each_visited_once (m : Int) (live : Finset Int) (inside : ∀ i ∈ live, 0 ≤ i ∧ i < m)
    (slot : Nat → Int) (start : 0 ≤ slot 0 ∧ slot 0 < m)
    (moves : ∀ k < live.card, ∃ d, Next m live (slot k) d ∧ slot (k + 1) = place m (slot k) d) (i : Int)
    (member : i ∈ live) : ∃! k, k < live.card ∧ slot (k + 1) = i := by
  obtain ⟨d, distance⟩ : ∃ d : Nat → Int, ∀ k < live.card,
      Next m live (slot k) (d k) ∧ slot (k + 1) = place m (slot k) (d k) := by
    have total : ∀ k, ∃ d, k < live.card → Next m live (slot k) d ∧ slot (k + 1) = place m (slot k) d := by
      intro k
      by_cases less : k < live.card
      · exact (moves k less).imp fun _ here _ => here
      · exact ⟨0, fun inRun => absurd inRun less⟩
    choose d distance using total
    exact ⟨d, distance⟩
  have next := fun k less => (distance k less).1
  have steps := fun k less => (distance k less).2
  have visited := each_visited m live slot d start next steps inside
  obtain ⟨k, less, here⟩ := visited i member
  refine ⟨k, ⟨less, here⟩, ?_⟩
  rintro j ⟨less', here'⟩
  have once := Finset.inj_on_of_surj_on_of_card_le (s := Finset.range live.card) (t := live)
    (fun k _ => slot (k + 1)) (fun k inRange => by
      have inRun := Finset.mem_range.mp inRange
      rw [steps k inRun]
      exact (next k inRun).found)
    (fun i member => by
      obtain ⟨k, less, here⟩ := visited i member
      exact ⟨k, Finset.mem_range.mpr less, here⟩)
    (by rw [Finset.card_range])
  exact once (Finset.mem_range.mpr less') (Finset.mem_range.mpr less) (here'.trans here.symm)

end CyclicOrder
