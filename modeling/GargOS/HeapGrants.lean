import GargOS.HeapWalks

/-!
The used blocks of a heap across a call. `Grants` says what a successful search
does to them, `Survives` what a failed one and a growth do, and `MallocSafe` is
the condition under which no round of `malloc` divides a block that is smaller
than a header.
-/

namespace GargOS
open ByteMemory AddressSpace Tiling

/-- The used blocks of `bs'` are those of `bs` and `p`. A block that is taken
at address 0 is handed to nobody, so only a heap elsewhere has no others. -/
structure Grants (start : Nat) (bs bs' : List Segment) (p : Nat × Segment) : Prop where
  member : p ∈ layout 6 start bs'
  inUse : p.2.free = false
  fresh : p ∉ layout 6 start bs
  kept : ∀ q ∈ layout 6 start bs, q.2.free = false → q ∈ layout 6 start bs'
  only : start ≠ 0 → ∀ q ∈ layout 6 start bs', q.2.free = false → q = p ∨ q ∈ layout 6 start bs

theorem used_iff (q : Nat × Segment) : used q = true ↔ q.2.free = false := by
  simp [used]

theorem used_coalesce_iff (a : Nat) (bs : List Segment) (q : Nat × Segment)
    (inUse : q.2.free = false) :
    q ∈ layout 6 a (coalesce 6 bs) ↔ q ∈ layout 6 a bs := by
  have same := used_coalesce 6 a bs
  have member := congrArg (q ∈ ·) same
  simpa [List.mem_filter, used_iff, inUse] using member

theorem taken_used (bytes : Nat) (align : Byte) (a : Nat) (b : Segment) (r : Nat)
    (out : List Segment) (fits : bytes ≤ b.size) (taken : Taken bytes align a b r out) :
    ∃ c : Segment, c.free = false ∧ bytes ≤ c.size ∧ a ≤ r ∧ r + extent 6 c ≤ a + extent 6 b ∧
      ∀ q, q ∈ layout 6 a out ∧ q.2.free = false ↔ q = (r, c) := by
  rcases taken with ⟨_, rfl, rfl⟩ | ⟨_, lead, _, space, _, rfl, rfl⟩
  · unfold carveFront
    split
    · refine ⟨⟨false, bytes⟩, rfl, Nat.le_refl _, Nat.le_refl _, by simp [extent]; omega, ?_⟩
      rintro ⟨address, segment⟩
      simp only [layout_cons, layout_nil, List.mem_cons, List.not_mem_nil, or_false, Prod.mk.injEq]
      constructor
      · rintro ⟨here | ⟨_, rfl⟩, inUse⟩
        · exact here
        · simp at inUse
      · rintro ⟨rfl, rfl⟩
        exact ⟨Or.inl ⟨rfl, rfl⟩, rfl⟩
    · refine ⟨⟨false, b.size⟩, rfl, fits, Nat.le_refl _, by simp [extent], ?_⟩
      rintro ⟨address, segment⟩
      simp only [layout_cons, layout_nil, List.mem_cons, List.not_mem_nil, or_false, Prod.mk.injEq]
      constructor
      · rintro ⟨here, _⟩
        exact here
      · rintro ⟨rfl, rfl⟩
        exact ⟨⟨rfl, rfl⟩, rfl⟩
  · unfold carveAligned
    dsimp only
    have place : a + extent 6 ⟨true, lead⟩ = a + 6 + lead := by simp [extent, Nat.add_assoc]
    split
    · refine ⟨⟨false, bytes⟩, rfl, Nat.le_refl _, by omega, by simp [extent]; omega, ?_⟩
      rintro ⟨address, segment⟩
      simp only [layout_cons, layout_nil, List.mem_cons, List.not_mem_nil, or_false, Prod.mk.injEq,
        place]
      constructor
      · rintro ⟨⟨_, rfl⟩ | here | ⟨_, rfl⟩, inUse⟩
        · simp at inUse
        · exact here
        · simp at inUse
      · rintro ⟨rfl, rfl⟩
        exact ⟨Or.inr (Or.inl ⟨rfl, rfl⟩), rfl⟩
    · refine ⟨⟨false, b.size - 6 - lead⟩, rfl, by simp; omega, by omega,
        by simp [extent]; omega, ?_⟩
      rintro ⟨address, segment⟩
      simp only [layout_cons, layout_nil, List.mem_cons, List.not_mem_nil, or_false, Prod.mk.injEq,
        place]
      constructor
      · rintro ⟨⟨_, rfl⟩ | here, inUse⟩
        · simp at inUse
        · exact here
      · rintro ⟨rfl, rfl⟩
        exact ⟨Or.inr ⟨rfl, rfl⟩, rfl⟩

theorem taken_grants (bytes : Nat) (align : Byte) (start : Nat) (pre post out : List Segment)
    (b : Segment) (r : Nat) (candidate : Candidate bytes b)
    (taken : Taken bytes align (start + span 6 pre) b r out) :
    ∃ c : Segment, bytes ≤ c.size ∧
      Grants start (pre ++ b :: post) (pre ++ (out ++ post)) (r, c) := by
  have same := taken_span _ _ _ _ _ _ taken
  obtain ⟨c, inUse, large, low, high, exactly⟩ := taken_used _ _ _ _ _ _ candidate.2 taken
  have before : ∀ q, q ∈ layout 6 start (pre ++ b :: post) ↔ q ∈ layout 6 start pre ∨
      q = (start + span 6 pre, b) ∨ q ∈ layout 6 (start + span 6 pre + extent 6 b) post := by
    intro q
    simp
  have after : ∀ q, q ∈ layout 6 start (pre ++ (out ++ post)) ↔ q ∈ layout 6 start pre ∨
      q ∈ layout 6 (start + span 6 pre) out ∨
      q ∈ layout 6 (start + span 6 pre + extent 6 b) post := by
    intro q
    simp [same]
  have there : (r, c) ∈ layout 6 (start + span 6 pre) out := ((exactly (r, c)).mpr rfl).1
  refine ⟨c, large, (after _).mpr (Or.inr (Or.inl there)), inUse, ?_, ?_, ?_⟩
  · intro member
    have mine : (start + span 6 pre, b) ∈ layout 6 start (pre ++ b :: post) :=
      (before _).mpr (Or.inr (Or.inl rfl))
    have different : (r, c) ≠ (start + span 6 pre, b) := by
      intro equal
      have := (Prod.mk.inj equal).2
      rw [this, candidate.1] at inUse
      simp at inUse
    have apart := layout_apart 6 _ _ _ _ member mine different
    simp only [extent] at apart high
    omega
  · intro q member usedOne
    rcases (before q).mp member with earlier | rfl | later
    · exact (after q).mpr (Or.inl earlier)
    · rw [candidate.1] at usedOne
      simp at usedOne
    · exact (after q).mpr (Or.inr (Or.inr later))
  · intro _ q member usedOne
    rcases (after q).mp member with earlier | taken | later
    · exact Or.inr ((before q).mpr (Or.inl earlier))
    · exact Or.inl ((exactly q).mp ⟨taken, usedOne⟩)
    · exact Or.inr ((before q).mpr (Or.inr (Or.inr later)))

/-- The neighbours of a free block are used, so what replaces it may start and
end with free blocks. -/
theorem separated_replace (pre post out : List Segment) (b : Segment) (free : b.free = true)
    (inner : Separated out) (apart : Separated (pre ++ b :: post)) :
    Separated (pre ++ (out ++ post)) := by
  unfold Separated at *
  rw [List.isChain_append, List.isChain_cons] at apart
  obtain ⟨left, ⟨next, right⟩, joint⟩ := apart
  rw [List.isChain_append, List.isChain_append]
  refine ⟨left, ⟨inner, right, ?_⟩, ?_⟩
  · rintro c _ d member ⟨_, alsoFree⟩
    exact next d member ⟨free, alsoFree⟩
  · rintro c member d _ ⟨alsoFree, _⟩
    exact joint c member b (by simp) ⟨alsoFree, free⟩

theorem taken_separated (bytes : Nat) (align : Byte) (a : Nat) (b : Segment) (r : Nat)
    (out : List Segment) (taken : Taken bytes align a b r out) : Separated out := by
  rcases taken with ⟨_, _, rfl⟩ | ⟨_, lead, _, _, _, _, rfl⟩
  · unfold carveFront
    split <;> simp [Separated]
  · unfold carveAligned
    dsimp only
    split <;> simp [Separated]

/-! Safety of the next round of `malloc`. -/

theorem divides_safely_grown (bytes : Nat) (align : Byte) (a : Nat) (prev : Segment)
    (rest : List Segment) (apart : Separated (prev :: rest))
    (safe : DividesSafely bytes align a (prev :: rest)) :
    DividesSafely bytes align a (coalesceFrom 6 prev (rest ++ [⟨true, 4090⟩])) := by
  induction rest generalizing a prev with
  | nil =>
      simp only [List.nil_append, coalesceFrom]
      split
      · exact ⟨fun _ => Or.inl (by simp [extent]), fun _ => trivial⟩
      · exact ⟨safe.1, fun _ => ⟨fun _ => Or.inl (by simp), fun _ => trivial⟩⟩
  | cons b rest ih =>
      rw [Separated, List.isChain_cons_cons] at apart
      have apartFree : ¬ (b.free && prev.free) = true := by
        rw [Bool.and_eq_true]
        exact fun both => apart.1 both.symm
      rw [List.cons_append, coalesceFrom, if_neg apartFree]
      exact ⟨safe.1, fun skip => ih _ b apart.2 (safe.2 skip)⟩

/-- No call of `malloc` on these blocks divides a block smaller than a header.
The block at address 0 is the one a round can take and yet go on searching. -/
def MallocSafe (bytes : Nat) (align : Byte) (start : Nat) (bs : List Segment) : Prop :=
  DividesSafely bytes align start bs ∧
    ∀ b rest, start = 0 → align = 0#8 → bs = b :: rest → Suits bytes align 0 b →
      DividesSafely bytes align 0 (carveFront bytes b ++ rest)

theorem malloc_safe_large (bytes : Nat) (align : Byte) (large : 6 ≤ bytes) (start : Nat)
    (bs : List Segment) : MallocSafe bytes align start bs :=
  ⟨divides_safely_large bytes align large start bs,
    fun _ _ _ _ _ _ => divides_safely_large bytes align large _ _⟩

theorem malloc_safe_page (bytes : Nat) (align : Byte) (start n : Nat) (large : 4090 ≤ n) :
    MallocSafe bytes align start [⟨true, n⟩] := by
  by_cases long : 6 ≤ bytes
  · exact malloc_safe_large bytes align long _ _
  · refine ⟨⟨fun _ => Or.inl (by simp; omega), fun _ => trivial⟩, ?_⟩
    rintro b rest _ _ equal suits
    obtain ⟨rfl, rfl⟩ := List.cons.inj equal
    have divided : bytes + 6 ≤ n := by omega
    simp only [carveFront, divided, if_true, List.append_nil]
    refine ⟨fun candidate => ?_, fun _ => ⟨fun _ => Or.inl (by simp; omega), fun _ => trivial⟩⟩
    simp [Candidate] at candidate

theorem malloc_safe_grown (bytes : Nat) (align : Byte) (start : Nat) (bs : List Segment)
    (apart : Separated bs) (safe : DividesSafely bytes align start bs)
    (blocked : ∀ b rest, start = 0 → align = 0#8 → bs = b :: rest → ¬ Suits bytes align 0 b) :
    MallocSafe bytes align start (coalesce 6 (bs ++ [⟨true, 4090⟩])) := by
  match bs with
  | [] => exact malloc_safe_page bytes align start 4090 (Nat.le_refl _)
  | [b] =>
      have grown := divides_safely_grown bytes align start b [] apart safe
      simp only [List.nil_append] at grown
      simp only [List.cons_append, List.nil_append, coalesce]
      by_cases free : b.free = true
      · simp only [coalesceFrom, free, Bool.and_self, if_true]
        exact malloc_safe_page bytes align start _ (by simp [extent])
      · refine ⟨grown, ?_⟩
        simp only [coalesceFrom, free, Bool.and_false, Bool.false_eq_true, if_false]
        rintro c rest zero unaligned equal suits
        obtain ⟨rfl, rfl⟩ := List.cons.inj equal
        exact absurd suits (blocked _ _ zero unaligned rfl)
  | b :: c :: rest =>
      have grown := divides_safely_grown bytes align start b (c :: rest) apart safe
      refine ⟨grown, ?_⟩
      have notBoth : ¬ (c.free && b.free) = true := by
        rw [Separated, List.isChain_cons_cons] at apart
        rw [Bool.and_eq_true]
        exact fun both => apart.1 both.symm
      simp only [List.cons_append, coalesce, coalesceFrom, if_neg notBoth]
      rintro d others zero unaligned equal suits
      obtain ⟨rfl, rfl⟩ := List.cons.inj equal
      exact absurd suits (blocked _ _ zero unaligned rfl)

/-- Every used block of `bs` is one of `bs'`, and unless the heap starts at
address 0 the other way round. -/
structure Survives (start : Nat) (bs bs' : List Segment) : Prop where
  kept : ∀ q ∈ layout 6 start bs, q.2.free = false → q ∈ layout 6 start bs'
  only : start ≠ 0 → ∀ q ∈ layout 6 start bs', q.2.free = false → q ∈ layout 6 start bs

theorem survives_grown (start : Nat) (bs : List Segment) :
    Survives start bs (coalesce 6 (bs ++ [⟨true, 4090⟩])) := by
  constructor
  · intro q member inUse
    rw [used_coalesce_iff start _ q inUse, layout_append]
    exact List.mem_append.mpr (Or.inl member)
  · intro _ q member inUse
    rw [used_coalesce_iff start _ q inUse, layout_append, List.mem_append] at member
    rcases member with here | page
    · exact here
    · simp only [layout_cons, layout_nil, List.mem_singleton] at page
      simp [page] at inUse

theorem survives_grants (start : Nat) (bs bs' bs'' : List Segment) (p : Nat × Segment)
    (survives : Survives start bs bs') (grants : Grants start bs' bs'' p) :
    Grants start bs bs'' p where
  member := grants.member
  inUse := grants.inUse
  fresh member := grants.fresh (survives.kept p member grants.inUse)
  kept q member inUse := grants.kept q (survives.kept q member inUse) inUse
  only elsewhere q member inUse :=
    (grants.only elsewhere q member inUse).imp_right fun earlier =>
      survives.only elsewhere q earlier inUse

theorem survives_trans (start : Nat) (bs bs' bs'' : List Segment)
    (first : Survives start bs bs') (second : Survives start bs' bs'') :
    Survives start bs bs'' where
  kept q member inUse := second.kept q (first.kept q member inUse) inUse
  only elsewhere q member inUse :=
    first.only elsewhere q (second.only elsewhere q member inUse) inUse

theorem used_kept_survives (m m' m'' : Memory) (start : Nat) (bs bs' : List Segment)
    (survives : Survives start bs bs') (first : UsedKept m m' start bs)
    (second : UsedKept m' m'' start bs') : UsedKept m m'' start bs := by
  intro p member inUse x low high
  rw [second p (survives.kept p member inUse) inUse x low high, first p member inUse x low high]

theorem carve_front_head (bytes : Nat) (b : Segment) :
    ∃ n rest, carveFront bytes b = ⟨false, n⟩ :: rest := by
  unfold carveFront
  split
  · exact ⟨_, _, rfl⟩
  · exact ⟨_, _, rfl⟩

theorem span_zero (bs : List Segment) (nothing : span 6 bs = 0) : bs = [] := by
  cases bs with
  | nil => rfl
  | cons b rest =>
      simp [extent] at nothing

/-- A block that is taken at address 0 is the first of a heap that starts there. -/
theorem taken_null (bytes : Nat) (align : Byte) (start : Nat) (pre : List Segment) (b : Segment)
    (r : Word) (out : List Segment) (none : r = NULL)
    (taken : Taken bytes align (start + span 6 pre) b r.toNat out) :
    start = 0 ∧ align = 0#8 ∧ pre = [] ∧ out = carveFront bytes b := by
  have zero : r.toNat = 0 := by
    rw [none]
    rfl
  rcases taken with ⟨unaligned, place, front⟩ | ⟨_, lead, _, _, _, place, _⟩
  · exact ⟨by omega, unaligned, span_zero pre (by omega), front⟩
  · omega

theorem freed_used (a : Nat) (pre post : List Segment) (b : Segment) (q : Nat × Segment)
    (usedOne : q.2.free = false) :
    q ∈ layout 6 a (pre ++ ⟨true, b.size⟩ :: post) ↔
      q ∈ layout 6 a (pre ++ b :: post) ∧ q ≠ (a + span 6 pre, b) := by
  have larger : 6 ≤ extent 6 q.2 := by simp [extent]
  have notFree : q ≠ (a + span 6 pre, ⟨true, b.size⟩) := by
    rintro rfl
    simp at usedOne
  have length : extent 6 ⟨true, b.size⟩ = extent 6 b := rfl
  simp only [layout_append, layout_cons, List.mem_append, List.mem_cons, notFree, false_or, length]
  constructor
  · rintro (earlier | later)
    · have bounds := layout_bounds 6 _ _ q earlier
      refine ⟨Or.inl earlier, ?_⟩
      rintro rfl
      omega
    · have bounds := layout_bounds 6 _ _ q later
      have positive : 6 ≤ extent 6 b := by simp [extent]
      refine ⟨Or.inr (Or.inr later), ?_⟩
      rintro rfl
      omega
  · rintro ⟨earlier | here | later, different⟩
    · exact Or.inl earlier
    · exact absurd here different
    · exact Or.inr later

end GargOS
