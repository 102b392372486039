import Mathlib.Data.List.Basic
import Mathlib.Data.List.Chain

/-!
Ranges tiled by headed segments. A segment takes `header` bytes for its header
and `size` bytes for its payload; a tiling is the list of segments met when the
range is walked from its first byte. Coalescing joins neighbouring free
segments and leaves every used segment where it was.
-/

namespace Tiling

structure Segment where
  free : Bool
  size : Nat
  deriving DecidableEq, Repr

variable (header : Nat)

def extent (b : Segment) : Nat := header + b.size

def span : List Segment → Nat
  | [] => 0
  | b :: rest => extent header b + span rest

/-- The segments of a tiling with the addresses of their headers. -/
def layout : Nat → List Segment → List (Nat × Segment)
  | _, [] => []
  | a, b :: rest => (a, b) :: layout (a + extent header b) rest

def used (p : Nat × Segment) : Bool := !p.2.free

@[simp] theorem span_nil : span header [] = 0 := rfl

@[simp] theorem span_cons (b : Segment) (rest : List Segment) :
    span header (b :: rest) = extent header b + span header rest := rfl

@[simp] theorem span_append (left right : List Segment) :
    span header (left ++ right) = span header left + span header right := by
  induction left with
  | nil => simp
  | cons b rest ih => simp [ih, Nat.add_assoc]

@[simp] theorem layout_nil (a : Nat) : layout header a [] = [] := rfl

@[simp] theorem layout_cons (a : Nat) (b : Segment) (rest : List Segment) :
    layout header a (b :: rest) = (a, b) :: layout header (a + extent header b) rest := rfl

@[simp] theorem layout_append (a : Nat) (left right : List Segment) :
    layout header a (left ++ right) =
      layout header a left ++ layout header (a + span header left) right := by
  induction left generalizing a with
  | nil => simp
  | cons b rest ih => simp [ih, Nat.add_assoc]

theorem layout_bounds (a : Nat) (bs : List Segment) (p : Nat × Segment)
    (member : p ∈ layout header a bs) :
    a ≤ p.1 ∧ p.1 + extent header p.2 ≤ a + span header bs := by
  induction bs generalizing a with
  | nil => simp at member
  | cons b rest ih =>
      simp only [layout_cons, List.mem_cons, span_cons] at member ⊢
      rcases member with rfl | later
      · simp
      · have := ih _ later
        omega

theorem layout_ordered (a : Nat) (bs : List Segment) :
    (layout header a bs).Pairwise fun p q => p.1 + extent header p.2 ≤ q.1 := by
  induction bs generalizing a with
  | nil => simp
  | cons b rest ih =>
      rw [layout_cons, List.pairwise_cons]
      exact ⟨fun q member => (layout_bounds header _ rest q member).1, ih _⟩

theorem layout_apart (a : Nat) (bs : List Segment) (p q : Nat × Segment)
    (left : p ∈ layout header a bs) (right : q ∈ layout header a bs) (different : p ≠ q) :
    p.1 + extent header p.2 ≤ q.1 ∨ q.1 + extent header q.2 ≤ p.1 := by
  have apart : (layout header a bs).Pairwise fun p q =>
      p.1 + extent header p.2 ≤ q.1 ∨ q.1 + extent header q.2 ≤ p.1 :=
    (layout_ordered header a bs).imp Or.inl
  have : Std.Symm fun p q : Nat × Segment =>
      p.1 + extent header p.2 ≤ q.1 ∨ q.1 + extent header q.2 ≤ p.1 := ⟨fun _ _ => Or.symm⟩
  exact apart.forall left right different

theorem layout_unique (positive : 0 < header) (a : Nat) (bs : List Segment)
    (p q : Nat × Segment) (left : p ∈ layout header a bs) (right : q ∈ layout header a bs)
    (same : p.1 = q.1) : p = q := by
  by_contra different
  have := layout_apart header a bs p q left right different
  unfold extent at this
  omega

theorem layout_split (a : Nat) (bs : List Segment) (p : Nat × Segment)
    (member : p ∈ layout header a bs) :
    ∃ pre post, bs = pre ++ p.2 :: post ∧ p.1 = a + span header pre := by
  induction bs generalizing a with
  | nil => simp at member
  | cons b rest ih =>
      rcases List.mem_cons.mp member with rfl | later
      · exact ⟨[], rest, rfl, rfl⟩
      · obtain ⟨pre, post, split, place⟩ := ih _ later
        refine ⟨b :: pre, post, by rw [split]; rfl, ?_⟩
        rw [place, span_cons, Nat.add_assoc]

/-! Coalescing. `prev` is the segment that neighbours are joined to. -/

def coalesceFrom (prev : Segment) : List Segment → List Segment
  | [] => [prev]
  | b :: rest =>
      if b.free && prev.free then
        coalesceFrom ⟨prev.free, prev.size + extent header b⟩ rest
      else prev :: coalesceFrom b rest

def coalesce : List Segment → List Segment
  | [] => []
  | b :: rest => coalesceFrom header b rest

def Separated (bs : List Segment) : Prop :=
  bs.IsChain fun b c => ¬ (b.free = true ∧ c.free = true)

theorem span_coalesce_from (prev : Segment) (bs : List Segment) :
    span header (coalesceFrom header prev bs) = extent header prev + span header bs := by
  induction bs generalizing prev with
  | nil => simp [coalesceFrom]
  | cons b rest ih =>
      unfold coalesceFrom
      split
      · rw [ih]
        simp only [extent, span_cons]
        omega
      · simp [ih]

@[simp] theorem span_coalesce (bs : List Segment) :
    span header (coalesce header bs) = span header bs := by
  cases bs with
  | nil => rfl
  | cons b rest => exact span_coalesce_from header b rest

theorem used_coalesce_from (a : Nat) (prev : Segment) (bs : List Segment) :
    (layout header a (coalesceFrom header prev bs)).filter used =
      (layout header a (prev :: bs)).filter used := by
  induction bs generalizing a prev with
  | nil => rfl
  | cons b rest ih =>
      unfold coalesceFrom
      split
      next both =>
        simp only [Bool.and_eq_true] at both
        rw [ih]
        simp [used, both, extent, Nat.add_assoc]
      next =>
        rw [layout_cons, List.filter_cons, ih, layout_cons header a prev, List.filter_cons]

/-- Coalescing moves no used segment and changes no used segment's size. -/
theorem used_coalesce (a : Nat) (bs : List Segment) :
    (layout header a (coalesce header bs)).filter used = (layout header a bs).filter used := by
  cases bs with
  | nil => rfl
  | cons b rest => exact used_coalesce_from header a b rest

theorem coalesce_from_head (prev : Segment) (bs : List Segment) :
    ∃ n rest, coalesceFrom header prev bs = ⟨prev.free, n⟩ :: rest := by
  induction bs generalizing prev with
  | nil => exact ⟨prev.size, [], rfl⟩
  | cons b rest ih =>
      unfold coalesceFrom
      split
      · exact ih _
      · exact ⟨prev.size, _, rfl⟩

theorem coalesce_from_separated (prev : Segment) (bs : List Segment) :
    Separated (coalesceFrom header prev bs) := by
  induction bs generalizing prev with
  | nil => simp [coalesceFrom, Separated]
  | cons b rest ih =>
      unfold coalesceFrom
      split
      · exact ih _
      · rename_i notBoth
        have tail := ih b
        obtain ⟨n, more, shape⟩ := coalesce_from_head header b rest
        unfold Separated at tail ⊢
        rw [shape] at tail ⊢
        rw [List.isChain_cons_cons]
        refine ⟨?_, tail⟩
        rintro ⟨left, right⟩
        exact notBoth (by simp_all)

theorem coalesce_separated (bs : List Segment) : Separated (coalesce header bs) := by
  cases bs with
  | nil => simp [coalesce, Separated]
  | cons b rest => exact coalesce_from_separated header b rest

/-! Segments appended behind a tiling that is coalesced already. -/

theorem coalesce_from_behind (prev last : Segment) (bs rest : List Segment)
    (apart : Separated (prev :: (bs ++ [last]))) :
    coalesceFrom header prev (bs ++ last :: rest) =
      prev :: (bs ++ coalesceFrom header last rest) := by
  induction bs generalizing prev with
  | nil =>
      have notBoth : ¬ (last.free && prev.free) = true := by
        rw [Separated, List.nil_append, List.isChain_cons_cons] at apart
        rw [Bool.and_eq_true]
        exact fun both => apart.1 both.symm
      rw [List.nil_append, coalesceFrom, if_neg notBoth]
      rfl
  | cons b bs ih =>
      rw [Separated, List.cons_append, List.isChain_cons_cons] at apart
      have notBoth : ¬ (b.free && prev.free) = true := by
        rw [Bool.and_eq_true]
        exact fun both => apart.1 both.symm
      rw [List.cons_append, coalesceFrom, if_neg notBoth, ih b apart.2]
      rfl

theorem coalesce_behind (bs rest : List Segment) (last : Segment)
    (apart : Separated (bs ++ [last])) :
    coalesce header (bs ++ last :: rest) = bs ++ coalesceFrom header last rest := by
  cases bs with
  | nil => rfl
  | cons b bs => exact coalesce_from_behind header b last bs rest apart

theorem coalesce_free_last (bs : List Segment) (size more : Nat)
    (apart : Separated (bs ++ [⟨true, size⟩])) :
    coalesce header (bs ++ [⟨true, size⟩] ++ [⟨true, more⟩]) =
      bs ++ [⟨true, size + (header + more)⟩] := by
  rw [List.append_assoc]
  exact coalesce_behind header bs [⟨true, more⟩] ⟨true, size⟩ apart

theorem coalesce_used_last (bs : List Segment) (more : Nat) (apart : Separated bs)
    (used : ∀ last ∈ bs.getLast?, last.free = false) :
    coalesce header (bs ++ [⟨true, more⟩]) = bs ++ [⟨true, more⟩] := by
  have still : Separated (bs ++ [⟨true, more⟩]) := by
    unfold Separated
    rw [List.isChain_append]
    refine ⟨apart, List.isChain_singleton _, ?_⟩
    rintro last member _ _ ⟨free, _⟩
    rw [used last member] at free
    exact Bool.false_ne_true free
  simpa [coalesceFrom] using coalesce_behind header bs [] ⟨true, more⟩ still

theorem coalesce_from_last (prev : Segment) (bs : List Segment) (more : Nat) :
    ∃ front size, more ≤ size ∧
      coalesceFrom header prev (bs ++ [⟨true, more⟩]) = front ++ [⟨true, size⟩] := by
  induction bs generalizing prev with
  | nil =>
      rw [List.nil_append, coalesceFrom]
      split
      next both =>
        have free : prev.free = true := by simpa using both
        refine ⟨[], prev.size + extent header ⟨true, more⟩, ?_, ?_⟩
        · simp only [extent]
          omega
        · simp [coalesceFrom, free]
      next => exact ⟨[prev], more, Nat.le_refl _, rfl⟩
  | cons b bs ih =>
      rw [List.cons_append, coalesceFrom]
      split
      · exact ih _
      · obtain ⟨front, size, large, shape⟩ := ih b
        exact ⟨prev :: front, size, large, by rw [shape]; rfl⟩

theorem coalesce_last (bs : List Segment) (more : Nat) :
    ∃ front size, more ≤ size ∧
      coalesce header (bs ++ [⟨true, more⟩]) = front ++ [⟨true, size⟩] := by
  cases bs with
  | nil => exact ⟨[], more, Nat.le_refl _, rfl⟩
  | cons b bs => exact coalesce_from_last header b bs more

theorem coalesce_from_sizes (least : Nat) (prev : Segment) (bs : List Segment)
    (first : least ≤ prev.size) (all : ∀ b ∈ bs, least ≤ b.size) :
    ∀ b ∈ coalesceFrom header prev bs, least ≤ b.size := by
  induction bs generalizing prev with
  | nil =>
      intro b member
      rw [coalesceFrom, List.mem_singleton] at member
      rwa [member]
  | cons c rest ih =>
      have later := fun b member => all b (List.mem_cons_of_mem c member)
      unfold coalesceFrom
      split
      · exact ih _ (Nat.le_trans first (Nat.le_add_right _ _)) later
      · intro b member
        rcases List.mem_cons.mp member with rfl | further
        · exact first
        · exact ih c (all c List.mem_cons_self) later b further

theorem coalesce_sizes (least : Nat) (bs : List Segment) (all : ∀ b ∈ bs, least ≤ b.size) :
    ∀ b ∈ coalesce header bs, least ≤ b.size := by
  cases bs with
  | nil => exact all
  | cons b rest =>
      exact coalesce_from_sizes header least b rest (all b List.mem_cons_self)
        fun c member => all c (List.mem_cons_of_mem b member)

theorem coalesce_from_length (prev : Segment) (bs : List Segment) :
    (coalesceFrom header prev bs).length ≤ bs.length + 1 := by
  induction bs generalizing prev with
  | nil => simp [coalesceFrom]
  | cons b rest ih =>
      unfold coalesceFrom
      split
      · have := ih ⟨prev.free, prev.size + extent header b⟩
        rw [List.length_cons]
        omega
      · simpa using ih b

theorem coalesce_length (bs : List Segment) : (coalesce header bs).length ≤ bs.length := by
  cases bs with
  | nil => exact Nat.le_refl _
  | cons b rest => exact coalesce_from_length header b rest

theorem separated_all_free (bs : List Segment) (apart : Separated bs)
    (free : ∀ b ∈ bs, b.free = true) (inhabited : bs ≠ []) :
    bs = [⟨true, span header bs - header⟩] := by
  match bs, inhabited with
  | [b], _ =>
      have mark := free b (by simp)
      cases b
      simp_all [extent]
  | b :: c :: rest, _ =>
      rw [Separated, List.isChain_cons_cons] at apart
      exact absurd ⟨free b (by simp), free c (by simp)⟩ apart.1

end Tiling
