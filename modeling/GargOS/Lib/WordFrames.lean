import Mathlib.Data.List.GetD
import GargOS.Lib.ByteLanes

/-!
Words stored one after another through a translation of addresses, upwards as a
structure is copied or downwards as a stack is pushed, and what another
translation then sees of them. Translations go page by page, so that within one
page's length an address is found under its own name only.
-/

namespace WordFrames
open ByteMemory ByteLanes

def KeepsOffset (t : Word → Word) : Prop := ∀ x, (t x).toNat % 4096 = x.toNat % 4096

/-- Memory as a translation shows it. -/
def through (t : Word → Word) (m : Memory) : Memory := fun x => m (t x)

theorem through_apply (t : Word → Word) (m : Memory) (x : Word) : through t m x = m (t x) := rfl

def storeThrough (t : Word → Word) (m : Memory) (a v : Word) : Memory :=
  write (write (write (write m (t a) (byteLane v 0)) (t (a + 1#32)) (byteLane v 1))
    (t (a + 2#32)) (byteLane v 2)) (t (a + 3#32)) (byteLane v 3)

def storeWords (t : Word → Word) (m : Memory) (a : Word) : List Word → Memory
  | [] => m
  | w :: ws => storeWords t (storeThrough t m a w) (a + 4#32) ws

/-- A push on a stack that grows downwards; the state is memory and top. -/
def push (t : Word → Word) (stack : Memory × Word) (w : Word) : Memory × Word :=
  (storeThrough t stack.1 (stack.2 - 4#32) w, stack.2 - 4#32)

/-- Words stored below a top, each by its place. -/
def storesBelow (t : Word → Word) (m : Memory) (top : Word) : List (Nat × Word) → Memory
  | [] => m
  | (k, w) :: rest => storesBelow t (storeThrough t m (top - BitVec.ofNat 32 (4 * (k + 1))) w) top rest

/-- The byte of `ws`, laid out from its first word, at a distance. -/
def wordsByte (ws : List Word) (distance : Nat) : Byte :=
  byteLane (ws.getD (distance / 4) 0#32) (distance % 4)

/-- The physical bytes behind a span. -/
def Behind (t : Word → Word) (a : Word) (n : Nat) (p : Word) : Prop := ∃ x, InSpan a n x ∧ t x = p

theorem words_byte_cons (w : Word) (ws : List Word) (distance : Nat) :
    wordsByte (w :: ws) distance =
      if distance < 4 then byteLane w distance else wordsByte ws (distance - 4) := by
  unfold wordsByte
  split
  next first =>
    rw [Nat.div_eq_of_lt first, Nat.mod_eq_of_lt first]
    rfl
  next later =>
    have index : distance / 4 = (distance - 4) / 4 + 1 := by omega
    have lane : distance % 4 = (distance - 4) % 4 := by omega
    rw [index, lane, List.getD_cons_succ]

theorem words_byte_concat (ws : List Word) (w : Word) (distance : Nat)
    (bound : distance < 4 * ws.length + 4) :
    wordsByte (ws ++ [w]) distance =
      if distance < 4 * ws.length then wordsByte ws distance
      else byteLane w (distance - 4 * ws.length) := by
  unfold wordsByte
  split
  next early =>
    rw [List.getD_append _ _ _ _ (by omega)]
  next last =>
    have index : distance / 4 - ws.length = 0 := by omega
    have lane : distance % 4 = distance - 4 * ws.length := by omega
    rw [List.getD_append_right _ _ _ _ (by omega), index, lane, List.getD_cons_zero]

theorem words_byte_word (ws : List Word) (k i : Nat) (bound : i < 4) :
    wordsByte ws (4 * k + i) = byteLane (ws.getD k 0#32) i := by
  have index : (4 * k + i) / 4 = k := by omega
  have lane : (4 * k + i) % 4 = i := by omega
  rw [wordsByte, index, lane]

theorem later_distance (a x : Word) (n : Nat) (fits : n + 4 ≤ 2 ^ 32) :
    (InSpan (a + 4#32) n x ↔ 4 ≤ (x - a).toNat ∧ (x - a).toNat < n + 4) ∧
      (4 ≤ (x - a).toNat → (x - (a + 4#32)).toNat = (x - a).toNat - 4) := by
  have next : (x - (a + 4#32)).toNat =
      if 4 ≤ (x - a).toNat then (x - a).toNat - 4 else (x - a).toNat + (2 ^ 32 - 4) := by
    split <;> bv_omega
  unfold InSpan
  rw [next]
  constructor
  · split <;> omega
  · intro later
    rw [if_pos later]

section Translations
variable (t e : Word → Word) (kept : KeepsOffset t) (keptToo : KeepsOffset e) (low : Word)
include kept keptToo

/-- Within one page's length two addresses share a byte only if they are equal. -/
theorem same_address (x y : Word) (near : InSpan low 4096 x) (nearToo : InSpan low 4096 y)
    (shared : t y = e x) : y = x := by
  have offsets : x.toNat % 4096 = y.toNat % 4096 := by
    rw [← kept y, ← keptToo x, shared]
  unfold InSpan at near nearToo
  bv_omega

theorem store_through_apply (m : Memory) (a v x : Word) (near : InSpan low 4096 x)
    (window : (a - low).toNat + 4 ≤ 4096) :
    storeThrough t m a v (e x) =
      if InSpan a 4 x ∧ t x = e x then byteLane v (x - a).toNat else m (e x) := by
  have found : ∀ i : Word, i.toNat < 4 → (e x = t (a + i) ↔ x = a + i ∧ t x = e x) := by
    intro i bound
    constructor
    · intro shared
      have inWindow : InSpan low 4096 (a + i) := by
        unfold InSpan
        bv_omega
      have here := same_address t e kept keptToo low x (a + i) near inWindow shared.symm
      refine ⟨here.symm, ?_⟩
      rw [shared, here]
    · rintro ⟨here, shared⟩
      rw [← here, shared]
  have zero := found 0#32 (by decide)
  rw [BitVec.add_zero] at zero
  simp only [storeThrough, write, zero, found 1#32 (by decide), found 2#32 (by decide),
    found 3#32 (by decide)]
  by_cases shared : t x = e x
  · simp only [shared, and_true]
    by_cases inside : InSpan a 4 x
    · have distance : (x - a).toNat = 0 ∨ (x - a).toNat = 1 ∨ (x - a).toNat = 2 ∨
          (x - a).toNat = 3 := by
        unfold InSpan at inside
        omega
      have lands : ∀ i : Word, (x - a).toNat = i.toNat → x = a + i := by
        intro i same
        bv_omega
      rw [if_pos inside]
      rcases distance with same | same | same | same
      · have here := lands 0#32 same
        simp [here]
      · have here := lands 1#32 same
        simp [here]
      · have here := lands 2#32 same
        simp [here]
      · have here := lands 3#32 same
        simp [here]
    · have away : ∀ i : Word, i.toNat < 4 → x ≠ a + i := by
        rintro i bound rfl
        exact inside (offset_in_span _ _ _ bound)
      have base : x ≠ a := by
        rintro rfl
        exact inside (base_in_span _ _ (by decide))
      rw [if_neg inside, if_neg (away 3#32 (by decide)), if_neg (away 2#32 (by decide)),
        if_neg (away 1#32 (by decide)), if_neg base]
  · simp only [shared, and_false, if_false]

theorem store_words_apply (ws : List Word) (m : Memory) (a x : Word) (near : InSpan low 4096 x)
    (window : (a - low).toNat + 4 * ws.length ≤ 4096) :
    storeWords t m a ws (e x) =
      if InSpan a (4 * ws.length) x ∧ t x = e x then wordsByte ws (x - a).toNat else m (e x) := by
  induction ws generalizing m a with
  | nil => simp [storeWords, InSpan]
  | cons w ws ih =>
      rw [List.length_cons, Nat.mul_succ] at window
      obtain ⟨span, distance⟩ := later_distance a x (4 * ws.length) (by omega)
      have whole : InSpan a (4 * (ws.length + 1)) x ↔ (x - a).toNat < 4 * ws.length + 4 := Iff.rfl
      have first : InSpan a 4 x ↔ (x - a).toNat < 4 := Iff.rfl
      have further : (a + 4#32 - low).toNat + 4 * ws.length ≤ 4096 := by
        bv_omega
      rw [storeWords, ih _ _ further, store_through_apply t e kept keptToo low _ _ _ _ near (by omega),
        List.length_cons, words_byte_cons]
      by_cases shared : t x = e x
      · simp only [span, whole, first, shared, and_true]
        by_cases early : (x - a).toNat < 4
        · rw [if_neg (by omega), if_pos early, if_pos (by omega), if_pos early]
        · by_cases inside : (x - a).toNat < 4 * ws.length + 4
          · rw [if_pos ⟨by omega, inside⟩, if_pos inside, if_neg early, distance (by omega)]
          · rw [if_neg (fun both => inside both.2), if_neg early, if_neg inside]
      · simp only [shared, and_false, if_false]

theorem pushes_apply (ws : List Word) (m : Memory) (top x : Word) (near : InSpan low 4096 x)
    (window : 4 * ws.length ≤ (top - low).toNat ∧ (top - low).toNat ≤ 4096) :
    (ws.foldl (push t) (m, top)).1 (e x) =
      if InSpan (top - BitVec.ofNat 32 (4 * ws.length)) (4 * ws.length) x ∧ t x = e x then
        wordsByte ws.reverse (x - (top - BitVec.ofNat 32 (4 * ws.length))).toNat
      else m (e x) := by
  induction ws generalizing m top with
  | nil => simp [InSpan]
  | cons w ws ih =>
      rw [List.length_cons, Nat.mul_succ] at window
      have below : top - 4#32 - BitVec.ofNat 32 (4 * ws.length) =
          top - BitVec.ofNat 32 (4 * ws.length + 4) := by
        bv_omega
      have room : (top - 4#32 - low).toNat + 4 = (top - low).toNat := by
        bv_omega
      rw [List.foldl_cons, push, ih _ _ ⟨by dsimp only; omega, by dsimp only; omega⟩,
        store_through_apply t e kept keptToo low _ _ _ _ near (by dsimp only; omega), List.reverse_cons,
        List.length_cons, Nat.mul_succ, below]
      generalize bottom : top - BitVec.ofNat 32 (4 * ws.length + 4) = base
      have whole : InSpan base (4 * ws.length + 4) x ↔ (x - base).toNat < 4 * ws.length + 4 := Iff.rfl
      have early : InSpan base (4 * ws.length) x ↔ (x - base).toNat < 4 * ws.length := Iff.rfl
      have last : InSpan (top - 4#32) 4 x ↔
          4 * ws.length ≤ (x - base).toNat ∧ (x - base).toNat < 4 * ws.length + 4 := by
        unfold InSpan
        bv_omega
      have distance : 4 * ws.length ≤ (x - base).toNat →
          (x - (top - 4#32)).toNat = (x - base).toNat - 4 * ws.length := by
        intro late
        bv_omega
      by_cases shared : t x = e x
      · simp only [whole, early, last, shared, and_true]
        by_cases inside : (x - base).toNat < 4 * ws.length + 4
        · rw [if_pos inside, words_byte_concat _ _ _ (by rwa [List.length_reverse]),
            List.length_reverse]
          by_cases first : (x - base).toNat < 4 * ws.length
          · rw [if_pos first, if_pos first]
          · rw [if_neg first, if_pos ⟨by omega, inside⟩, if_neg first, distance (by omega)]
        · rw [if_neg (by omega), if_neg (by omega), if_neg inside]
      · simp only [shared, and_false, if_false]

theorem pushed_place (ws : List Word) (m : Memory) (top : Word) (room : 4 * ws.length ≤ 4096) (k : Nat)
    (bound : k < ws.length) (i : Nat) (lane : i < 4) :
    (ws.foldl (push t) (m, top)).1 (e (top - BitVec.ofNat 32 (4 * (k + 1)) + BitVec.ofNat 32 i)) =
      if t (top - BitVec.ofNat 32 (4 * (k + 1)) + BitVec.ofNat 32 i) =
          e (top - BitVec.ofNat 32 (4 * (k + 1)) + BitVec.ofNat 32 i) then byteLane (ws.getD k 0#32) i
      else m (e (top - BitVec.ofNat 32 (4 * (k + 1)) + BitVec.ofNat 32 i)) := by
  generalize here : top - BitVec.ofNat 32 (4 * (k + 1)) + BitVec.ofNat 32 i = x
  have distance : (x - (top - BitVec.ofNat 32 (4 * ws.length))).toNat = 4 * (ws.length - 1 - k) + i := by
    bv_omega
  have inside : InSpan (top - BitVec.ofNat 32 (4 * ws.length)) (4 * ws.length) x := by
    unfold InSpan
    omega
  have place : ws.reverse.getD (ws.length - 1 - k) 0#32 = ws.getD k 0#32 := by
    rw [List.getD_eq_getElem _ _ (by rw [List.length_reverse]; omega), List.getD_eq_getElem _ _ bound,
      List.getElem_reverse]
    congr 1
    omega
  rw [pushes_apply t e kept keptToo (top - BitVec.ofNat 32 (4 * ws.length)) ws m top x
    (by unfold InSpan; omega) (by bv_omega)]
  by_cases shared : t x = e x
  · rw [if_pos ⟨inside, shared⟩, if_pos shared, distance, words_byte_word _ _ _ lane, place]
  · rw [if_neg fun both => shared both.2, if_neg shared]

end Translations

section Below
variable (t e : Word → Word) (kept : KeepsOffset t) (keptToo : KeepsOffset e) (top : Word) (depth : Nat)

theorem stores_below_missed (stores : List (Nat × Word)) (m : Memory) (p : Word)
    (missed : ∀ store ∈ stores, ∀ i < 4,
      p ≠ t (top - BitVec.ofNat 32 (4 * (store.1 + 1)) + BitVec.ofNat 32 i)) :
    storesBelow t m top stores p = m p := by
  induction stores generalizing m with
  | nil => rfl
  | cons store rest ih =>
      obtain ⟨first, later⟩ := List.forall_mem_cons.mp missed
      rw [storesBelow, ih _ later]
      have base := first 0 (by decide)
      rw [show BitVec.ofNat 32 0 = 0#32 from rfl, BitVec.add_zero] at base
      simp only [storeThrough, write, if_neg base, if_neg (first 1 (by decide)), if_neg (first 2 (by decide)),
        if_neg (first 3 (by decide))]

include kept keptToo

theorem stores_below_above (stores : List (Nat × Word)) (m : Memory) (within : ∀ store ∈ stores, store.1 < depth)
    (n : Nat) (room : 4 * depth + n ≤ 4096) (x : Word) (above : InSpan top n x) :
    storesBelow t m top stores (e x) = m (e x) := by
  refine stores_below_missed t top stores m _ fun store member i lane shared => ?_
  have shallow := within store member
  have same := same_address t e kept keptToo (top - BitVec.ofNat 32 (4 * depth)) x
    (top - BitVec.ofNat 32 (4 * (store.1 + 1)) + BitVec.ofNat 32 i)
    (by unfold InSpan at *; bv_omega) (by unfold InSpan; bv_omega) shared.symm
  rw [← same] at above
  unfold InSpan at above
  bv_omega

omit keptToo in
theorem stores_below_place (stores : List (Nat × Word)) (m : Memory) (within : ∀ store ∈ stores, store.1 < depth)
    (room : 4 * depth ≤ 4096) (distinct : (stores.map Prod.fst).Nodup) (store : Nat × Word)
    (member : store ∈ stores) (i : Nat) (lane : i < 4) :
    storesBelow t m top stores (t (top - BitVec.ofNat 32 (4 * (store.1 + 1)) + BitVec.ofNat 32 i)) =
      byteLane store.2 i := by
  induction stores generalizing m with
  | nil => exact absurd member List.not_mem_nil
  | cons first rest ih =>
      obtain ⟨shallow, others⟩ := List.forall_mem_cons.mp within
      obtain ⟨alone, apart⟩ := List.nodup_cons.mp distinct
      rw [storesBelow]
      rcases List.mem_cons.mp member with rfl | later
      · have missed : ∀ other ∈ rest, ∀ j < 4,
            t (top - BitVec.ofNat 32 (4 * (store.1 + 1)) + BitVec.ofNat 32 i) ≠
              t (top - BitVec.ofNat 32 (4 * (other.1 + 1)) + BitVec.ofNat 32 j) := by
          intro other inside j inWord shared
          have deep := others other inside
          have different : other.1 ≠ store.1 := fun same => alone (same ▸ List.mem_map_of_mem inside)
          have same := same_address t t kept kept (top - BitVec.ofNat 32 (4 * depth)) _ _
            (by unfold InSpan; bv_omega) (by unfold InSpan; bv_omega) shared
          bv_omega
        have place : top - BitVec.ofNat 32 (4 * (store.1 + 1)) + BitVec.ofNat 32 i -
            (top - BitVec.ofNat 32 (4 * (store.1 + 1))) = BitVec.ofNat 32 i := by
          bv_omega
        rw [stores_below_missed t top rest _ _ missed,
          store_through_apply t t kept kept (top - BitVec.ofNat 32 (4 * depth)) _ _ _ _
            (by unfold InSpan; bv_omega) (by bv_omega),
          if_pos ⟨by unfold InSpan; rw [place]; bv_omega, rfl⟩, place]
        congr 1
        bv_omega
      · exact ih _ others apart later

end Below

section Outside
variable (t : Word → Word)

theorem store_through_outside (m : Memory) (a v p : Word) (outside : ¬ Behind t a 4 p) :
    storeThrough t m a v p = m p := by
  have away : ∀ i : Word, i.toNat < 4 → p ≠ t (a + i) := by
    rintro i bound rfl
    exact outside ⟨a + i, offset_in_span _ _ _ bound, rfl⟩
  have base : p ≠ t a := by
    rintro rfl
    exact outside ⟨a, base_in_span _ _ (by decide), rfl⟩
  simp only [storeThrough, write, if_neg base, if_neg (away 1#32 (by decide)),
    if_neg (away 2#32 (by decide)), if_neg (away 3#32 (by decide))]

theorem behind_mono (a b : Word) (n k : Nat) (p : Word)
    (part : ∀ x, InSpan a n x → InSpan b k x) (outside : ¬ Behind t b k p) : ¬ Behind t a n p :=
  fun ⟨x, inside, here⟩ => outside ⟨x, part x inside, here⟩

theorem store_words_outside (ws : List Word) (m : Memory) (a p : Word)
    (fits : 4 * ws.length ≤ 2 ^ 32) (outside : ¬ Behind t a (4 * ws.length) p) :
    storeWords t m a ws p = m p := by
  induction ws generalizing m a with
  | nil => rfl
  | cons w ws ih =>
      rw [List.length_cons, Nat.mul_succ] at fits outside
      have rest : ¬ Behind t (a + 4#32) (4 * ws.length) p :=
        behind_mono t _ _ _ _ p
          (fun x inside => ((later_distance a x _ fits).1.mp inside).2) outside
      have first : ¬ Behind t a 4 p :=
        behind_mono t _ _ _ _ p (fun x inside => by unfold InSpan at *; omega) outside
      rw [storeWords, ih _ _ (by omega) rest, store_through_outside t m a w p first]

theorem pushes_outside (ws : List Word) (m : Memory) (top p : Word) (fits : 4 * ws.length ≤ 2 ^ 32)
    (outside : ¬ Behind t (top - BitVec.ofNat 32 (4 * ws.length)) (4 * ws.length) p) :
    (ws.foldl (push t) (m, top)).1 p = m p := by
  induction ws generalizing m top with
  | nil => rfl
  | cons w ws ih =>
      rw [List.length_cons, Nat.mul_succ] at fits outside
      have below : top - 4#32 - BitVec.ofNat 32 (4 * ws.length) =
          top - BitVec.ofNat 32 (4 * ws.length + 4) := by
        bv_omega
      have rest : ¬ Behind t (top - 4#32 - BitVec.ofNat 32 (4 * ws.length)) (4 * ws.length) p := by
        rw [below]
        exact behind_mono t _ _ _ _ p (fun x inside => by unfold InSpan at *; omega) outside
      have last : ¬ Behind t (top - 4#32) 4 p :=
        behind_mono t _ _ _ _ p (fun x inside => by unfold InSpan at *; bv_omega) outside
      rw [List.foldl_cons, push, ih _ _ (by omega) rest, store_through_outside t m _ w p last]

theorem pushes_top (ws : List Word) (m : Memory) (top : Word) :
    (ws.foldl (push t) (m, top)).2 = top - BitVec.ofNat 32 (4 * ws.length) := by
  induction ws generalizing m top with
  | nil => simp
  | cons w ws ih =>
      rw [List.foldl_cons, push, ih, List.length_cons]
      bv_omega

end Outside

/-- Each byte of a word written through `t` is found there through `e`, or was
there to be seen before. -/
def Seen (t e : Word → Word) (m : Memory) (a w : Word) (n : Nat) : Prop :=
  ∀ i < n, t (a + BitVec.ofNat 32 i) = e (a + BitVec.ofNat 32 i) ∨
    m (e (a + BitVec.ofNat 32 i)) = byteLane w i

theorem byte_lane_load32 (m : Memory) (a : Word) (i : Nat) (bound : i < 4) :
    byteLane (load32 m a) i = m (a + BitVec.ofNat 32 i) := by
  have lanes : load32 m a = ofLanes fun j => m (a + BitVec.ofNat 32 j) := by
    simp [load32, ofLanes]
  rw [lanes, byte_lane_of _ _ bound]

theorem load32_laid (m : Memory) (a w : Word)
    (laid : ∀ i < 4, m (a + BitVec.ofNat 32 i) = byteLane w i) : load32 m a = w := by
  apply byte_lanes_ext
  intro i inside
  rw [byte_lane_load32 _ _ _ inside, laid i inside]

theorem low_lanes (v w : Word) (n : Nat) :
    v.setWidth (8 * n) = w.setWidth (8 * n) ↔ ∀ i < n, byteLane v i = byteLane w i := by
  constructor
  · intro same i inside
    have lane : ∀ u : Word, byteLane u i = (u.setWidth (8 * n)).extractLsb' (8 * i) 8 := by
      intro u
      ext k inByte
      have low : 8 * i + k < 8 * n := by omega
      simp only [byteLane, BitVec.getElem_extractLsb', BitVec.getLsbD_setWidth, low, decide_true,
        Bool.true_and]
    rw [lane, lane, same]
  · intro same
    ext k inside
    have bit : ∀ u : Word, u.getLsbD k = (byteLane u (k / 8)).getLsbD (k % 8) := by
      intro u
      have inByte : k % 8 < 8 := Nat.mod_lt k (by decide)
      simp only [byteLane, BitVec.getLsbD_extractLsb', inByte, decide_true, Bool.true_and,
        Nat.div_add_mod]
    simp only [BitVec.getElem_setWidth]
    rw [bit v, bit w, same (k / 8) (by omega)]

section Loads
variable (t e : Word → Word) (m after : Memory) (a w : Word)
  (result : ∀ i < 4, after (e (a + BitVec.ofNat 32 i)) =
    if t (a + BitVec.ofNat 32 i) = e (a + BitVec.ofNat 32 i) then byteLane w i
    else m (e (a + BitVec.ofNat 32 i)))
include result

/-- A load through `e` of the first bytes of a word laid out through `t`. -/
theorem load_seen (n : Nat) (bound : n ≤ 4) :
    (load32 (through e after) a).setWidth (8 * n) = w.setWidth (8 * n) ↔ Seen t e m a w n := by
  rw [low_lanes]
  unfold Seen
  constructor
  · intro same i inside
    have here := same i inside
    rw [byte_lane_load32 _ _ _ (by omega), through_apply, result i (by omega)] at here
    split at here
    next shared => exact Or.inl shared
    next => exact Or.inr here
  · intro seen i inside
    rw [byte_lane_load32 _ _ _ (by omega), through_apply, result i (by omega)]
    split
    next => rfl
    next apart => exact (seen i inside).resolve_left apart

theorem load_seen_word : load32 (through e after) a = w ↔ Seen t e m a w 4 := by
  rw [← load_seen t e m after a w result 4 (by decide)]
  simp

end Loads
/-! What one translation finds of its own pushes, and words that are written
where they stand. -/

section Frames
variable (t : Word → Word) (kept : KeepsOffset t)
include kept

theorem pushed_word (ws : List Word) (m : Memory) (top : Word) (room : 4 * ws.length ≤ 4096) (k : Nat)
    (bound : k < ws.length) :
    load32 (through t (ws.foldl (push t) (m, top)).1)
        (top - BitVec.ofNat 32 (4 * ws.length) + BitVec.ofNat 32 (4 * k)) = ws.reverse.getD k 0#32 := by
  apply load32_laid
  intro i lane
  have distance : (top - BitVec.ofNat 32 (4 * ws.length) + BitVec.ofNat 32 (4 * k) + BitVec.ofNat 32 i -
      (top - BitVec.ofNat 32 (4 * ws.length))).toNat = 4 * k + i := by
    bv_omega
  have window : 4 * ws.length ≤ (top - (top - BitVec.ofNat 32 (4 * ws.length))).toNat ∧
      (top - (top - BitVec.ofNat 32 (4 * ws.length))).toNat ≤ 4096 := by
    bv_omega
  rw [through_apply, pushes_apply t t kept kept _ ws m top _ (by unfold InSpan; omega) window,
    if_pos ⟨by unfold InSpan; omega, rfl⟩, distance, words_byte_word _ _ _ lane]

theorem pushes_above (ws : List Word) (m : Memory) (top : Word) (j : Nat) (room : 4 * ws.length + j + 4 ≤ 4096) :
    load32 (through t (ws.foldl (push t) (m, top)).1) (top + BitVec.ofNat 32 j) =
      load32 (through t m) (top + BitVec.ofNat 32 j) := by
  apply load32_laid
  intro i lane
  have distance : (top + BitVec.ofNat 32 j + BitVec.ofNat 32 i - (top - BitVec.ofNat 32 (4 * ws.length))).toNat =
      4 * ws.length + j + i := by
    bv_omega
  have window : 4 * ws.length ≤ (top - (top - BitVec.ofNat 32 (4 * ws.length))).toNat ∧
      (top - (top - BitVec.ofNat 32 (4 * ws.length))).toNat ≤ 4096 := by
    bv_omega
  have beyond : ¬ InSpan (top - BitVec.ofNat 32 (4 * ws.length)) (4 * ws.length)
      (top + BitVec.ofNat 32 j + BitVec.ofNat 32 i) := by
    unfold InSpan
    omega
  rw [through_apply, pushes_apply t t kept kept _ ws m top _ (by unfold InSpan; omega) window,
    if_neg (fun both => beyond both.1), byte_lane_load32 _ _ _ lane, through_apply]

end Frames

def loadWords (m : Memory) (a : Word) : Nat → List Word
  | 0 => []
  | n + 1 => load32 m a :: loadWords m (a + 4#32) n

theorem write_standing (m : Memory) (p : Word) (b : Byte) (same : b = m p) : write m p b = m := by
  funext x
  unfold write
  split
  next here => rw [here, same]
  next => rfl

theorem store_loaded_words (t : Word → Word) (m : Memory) (a : Word) (n : Nat) :
    storeWords t m a (loadWords (through t m) a n) = m := by
  induction n generalizing a with
  | zero => rfl
  | succ n ih =>
      have lane := byte_lane_load32 (through t m) a
      have base := lane 0 (by decide)
      simp only [BitVec.add_zero, through_apply] at base
      have one : storeThrough t m a (load32 (through t m) a) = m := by
        rw [storeThrough, write_standing m _ _ base, write_standing m _ _ (lane 1 (by decide)),
          write_standing m _ _ (lane 2 (by decide)), write_standing m _ _ (lane 3 (by decide))]
      rw [loadWords, storeWords, one]
      exact ih _

end WordFrames
