import GargOS.Lib.Tiling
import Mathlib.Data.List.SplitBy

/-!
The maximal runs of a tiling. Neighbouring free segments belong to one run, a
used segment is a run of its own; coalescing makes one segment of each run.
-/

namespace Tiling

def bothFree (b c : Segment) : Bool := b.free && c.free

/-- The maximal runs of neighbouring free segments, and each used segment alone. -/
def runs (bs : List Segment) : List (List Segment) := bs.splitBy bothFree

variable (header : Nat)

def joined (run : List Segment) : Segment := ⟨run.all Segment.free, span header run - header⟩

theorem joined_one (b : Segment) : joined header [b] = b := by
  simp [joined, extent]

theorem joined_more (run : List Segment) (b : Segment) (some : run ≠ []) :
    joined header (run ++ [b]) =
      ⟨(joined header run).free && b.free, (joined header run).size + extent header b⟩ := by
  obtain ⟨first, rest, rfl⟩ := List.exists_cons_of_ne_nil some
  simp only [joined, List.all_append, List.all_cons, List.all_nil, Bool.and_true, span_append,
    span_cons, span_nil, extent, Segment.mk.injEq, true_and]
  omega

theorem run_free (run : List Segment) (some : run ≠ []) (chain : run.IsChain fun b c => bothFree b c)
    (last : (run.getLast some).free = true) : (joined header run).free = true := by
  induction run with
  | nil => exact absurd rfl some
  | cons b rest ih =>
      cases rest with
      | nil => simpa [joined] using last
      | cons c rest =>
          rw [List.isChain_cons_cons] at chain
          have behind := ih (List.cons_ne_nil c rest) chain.2 (by simpa using last)
          have both : b.free = true ∧ c.free = true := by simpa [bothFree] using chain.1
          simp only [joined, List.all_cons, Bool.and_eq_true] at behind ⊢
          exact ⟨both.1, behind⟩

/-- Coalescing goes on with the run that is open: the next segment joins it or
opens another one. -/
theorem coalesce_from_runs (run rest : List Segment) (some : run ≠ [])
    (chain : run.IsChain fun b c => bothFree b c) :
    coalesceFrom header (joined header run) rest = (runs (run ++ rest)).map (joined header) := by
  induction rest generalizing run with
  | nil =>
      rw [List.append_nil, runs, List.splitBy_of_isChain some chain]
      rfl
  | cons b rest ih =>
      rw [coalesceFrom]
      split
      next both =>
        rw [Bool.and_eq_true] at both
        have longer : (run ++ [b]).IsChain fun b c => bothFree b c := by
          rw [List.isChain_append]
          refine ⟨chain, List.isChain_singleton _, fun last member c single => ?_⟩
          obtain rfl : b = c := by simpa using single
          have free := both.2
          rw [joined, List.all_eq_true] at free
          simp [bothFree, both.1, free last (List.mem_of_getLast? member)]
        have next := ih (run ++ [b]) (by simp) longer
        rw [joined_more header run b some, both.2, both.1, Bool.and_true] at next
        rw [both.2, next, List.append_assoc]
        rfl
      next apart =>
        have closed : ∀ last ∈ run.getLast?, bothFree last b = false := by
          intro last member
          rw [List.getLast?_eq_some_getLast some, Option.mem_some_iff] at member
          by_contra joins
          simp only [bothFree, Bool.not_eq_false, Bool.and_eq_true] at joins
          have free := run_free header run some chain (member ▸ joins.1)
          exact apart (by rw [joins.2, free]; rfl)
        have next := ih [b] (List.cons_ne_nil b []) (List.isChain_singleton b)
        rw [joined_one] at next
        have split : runs (run ++ b :: rest) = run :: runs (b :: rest) := by
          rw [runs, List.splitBy_append_cons rest closed, List.splitBy_of_isChain some chain]
          rfl
        rw [next, split]
        rfl

theorem coalesce_runs (bs : List Segment) : coalesce header bs = (runs bs).map (joined header) := by
  cases bs with
  | nil => rfl
  | cons b rest =>
      have whole := coalesce_from_runs header [b] rest (List.cons_ne_nil b [])
        (List.isChain_singleton b)
      rw [joined_one] at whole
      exact whole

theorem extent_joined (run : List Segment) (some : run ≠ []) :
    extent header (joined header run) = span header run := by
  obtain ⟨b, rest, rfl⟩ := List.exists_cons_of_ne_nil some
  simp only [joined, extent, span_cons]
  omega

theorem span_joined (groups : List (List Segment)) (inhabited : [] ∉ groups) :
    span header (groups.map (joined header)) = span header groups.flatten := by
  induction groups with
  | nil => rfl
  | cons run groups ih =>
      rw [List.mem_cons, not_or] at inhabited
      rw [List.map_cons, span_cons, List.flatten_cons, span_append, ih inhabited.2,
        extent_joined header run (Ne.symm inhabited.1)]

theorem joined_place (a : Nat) (bs : List Segment) (before behind : List (List Segment))
    (run : List Segment) (split : runs bs = before ++ run :: behind) :
    (a + span header before.flatten, joined header run) ∈
      layout header a ((runs bs).map (joined header)) := by
  have inhabited : [] ∉ before := by
    intro member
    apply List.nil_notMem_splitBy bothFree bs
    rw [runs] at split
    rw [split]
    exact List.mem_append_left _ member
  rw [split, List.map_append, List.map_cons, layout_append, span_joined header before inhabited]
  simp

end Tiling
