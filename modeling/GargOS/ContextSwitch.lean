import GargOS.InterruptFrames
import GargOS.Timer

/-!
The timer's interrupt with a switch of processes, at kernel privilege: what is
pushed for the process that is interrupted, and what the handler's functions and
the stub then find for the process that is started next.
-/

namespace GargOS
open ByteMemory ByteLanes WordFrames

/-- A timer interrupt from kernel privilege up to the `iret` that ends it. The
variables of timer.c and scheduler.c are states of their own. -/
def irq0 (pageFrame : PageFrame) (returnTo : Word) (frames : CFrames) (m : Memory) (cpu : Cpu) (timer : Timer)
    (sched : Scheduler) : Option (Memory × Cpu × Timer × Scheduler) :=
  interrupt pageFrame returnTo frames (fun _ m => m) m cpu none 32 sched.currentDirectory fun r => do
    let (timer, sched, r) ← timerHandler timer sched r
    some ((timer, sched), sched.currentDirectory, r)

/-- The registers a switch saves for the process it interrupts; the last two
are the words that lay on top of its stack. -/
def interruptedRegs (cpu : Cpu) (useresp ss : Word) : Regs := frameRegs cpu 32#32 0#32 useresp ss

/-- What a process that has not run yet expects. -/
def freshContext (r : Regs) : Cpu where
  gs := r.gs.setWidth 16
  fs := r.fs.setWidth 16
  es := r.es.setWidth 16
  ds := r.ds.setWidth 16
  edi := r.edi
  esi := r.esi
  ebp := r.ebp
  esp := r.useresp
  ebx := r.ebx
  edx := r.edx
  ecx := r.ecx
  eax := r.eax
  eip := r.eip
  cs := r.cs.setWidth 16
  eflags := r.eflags
  ss := r.ss.setWidth 16

/-- `last_state_regs` of a process at kernel privilege, and the context it is
to be given back. -/
inductive LastContext : Regs → Cpu → Prop
  | interrupted (cpu : Cpu) (useresp ss : Word) (kernel : cpu.cs = 0x08#16) :
      LastContext (interruptedRegs cpu useresp ss) cpu
  | fresh (r : Regs) (kernel : r.cs = 0x08#32) : LastContext r (freshContext r)

def Scheduler.Next (s : Scheduler) (i : Int) : Prop :=
  ∃ d, 0 < d ∧ i = s.slotBehind d ∧ s.Taken i ∧ ∀ e, 0 < e → e < d → ¬ s.Taken (s.slotBehind e)

def Timer.Due (t : Timer) : Prop := t.timerTicks + 1#32 = t.timeSliceMillis * t.freq / 1000#32

/-- The words of the frame the stub pops, by their index, and how many bytes of
each. -/
def poppedWords : List (Nat × Nat) :=
  [(0, 2), (1, 2), (2, 2), (3, 2), (4, 4), (5, 4), (6, 4), (8, 4), (9, 4), (10, 4), (11, 4),
    (14, 4), (15, 2), (16, 4)]

section Switch
variable (pageFrame : PageFrame) (returnTo : Word) (frames : CFrames) (m : Memory) (cpu : Cpu) (timer : Timer)
  (sched : Scheduler)

/-- The switch gives `context` to the CPU and changes no byte but those behind
the frame and the frames of the handler's functions below it. -/
def Restores (context : Cpu) : Prop :=
  ∃ m' timer' sched', irq0 pageFrame returnTo frames m cpu timer sched = some (m', context, timer', sched') ∧
    ∀ p, ¬ frames.Region (translate pageFrame sched.currentDirectory) cpu.esp p → m' p = m p

/-- What the next directory shows the functions of their frames, and what they write
through it. -/
structure FramesSafe (t e : Word → Word) : Prop where
  argument : frames.argument = true → Seen t e m (cpu.esp - 72#32) (cpu.esp - 68#32) 4
  needed : ∀ k < frames.words.length, frames.needed k = true →
    Seen t e m (cpu.esp - 76#32 - BitVec.ofNat 32 (4 * (k + 1))) (frames.words.getD k 0#32) 4
  later : ∀ store ∈ frames.later, ∀ i < 4,
    frames.Region t cpu.esp (e (cpu.esp - 76#32 - BitVec.ofNat 32 (4 * (store.1 + 1)) + BitVec.ofNat 32 i)) ∨
      m (e (cpu.esp - 76#32 - BitVec.ofNat 32 (4 * (store.1 + 1)) + BitVec.ofNat 32 i)) = byteLane store.2 i

/-- Where the switch works: the next process left its stack where this one's
is, the two words above the frame are what the next one's structure holds, and
the next directory shows the pushed words. -/
structure SwitchSafe (context : Cpu) (r : Regs) (directory : Word) : Prop where
  stack : cpu.esp = context.esp
  segment : cpu.ss = context.ss
  useresp : load32 (through (translate pageFrame sched.currentDirectory) m) cpu.esp = r.useresp
  ss : load32 (through (translate pageFrame sched.currentDirectory) m) (cpu.esp + 4#32) = r.ss
  returns : Seen (translate pageFrame sched.currentDirectory) (translate pageFrame directory) m (cpu.esp - 76#32)
    returnTo 4
  popped : ∀ word ∈ poppedWords,
    Seen (translate pageFrame sched.currentDirectory) (translate pageFrame directory) m
      (cpu.esp - 68#32 + BitVec.ofNat 32 (4 * word.1)) (r.words.getD word.1 0#32) word.2
  functions : FramesSafe frames m cpu (translate pageFrame sched.currentDirectory) (translate pageFrame directory)

end Switch

theorem matched_timer : Matched none 32 := by
  have outside : 32 ∉ codeVectors := by decide
  exact iff_of_false (by simp) outside

/-- The addresses from the frames of the functions up to the two words above the frame. -/
def CFrames.Window (frames : CFrames) (esp x : Word) : Prop :=
  InSpan (esp - BitVec.ofNat 32 (76 + 4 * frames.depth)) (84 + 4 * frames.depth) x

theorem window_near (frames : CFrames) (esp x : Word) (inside : frames.Window esp x) :
    InSpan (esp - BitVec.ofNat 32 (76 + 4 * frames.depth)) 4096 x := by
  have shallow := frames.room
  unfold CFrames.Window InSpan at *
  omega

theorem context_registers (r : Regs) (context : Cpu) (last : LastContext r context) :
    context = { freshContext r with esp := context.esp, ss := context.ss } ∧ context.cs = 0x08#16 := by
  cases last with
  | interrupted cpu useresp ss kernel =>
      have segment : ∀ s : BitVec 16, (s.setWidth 32).setWidth 16 = s := by
        intro s
        simp
      simp only [freshContext, interruptedRegs, frameRegs, segment]
      exact ⟨trivial, kernel⟩
  | fresh r kernel =>
      refine ⟨rfl, ?_⟩
      rw [freshContext, kernel]
      rfl

theorem pop_frame_iff (v : Memory) (cpu : Cpu) (r : Regs) (context : Cpu)
    (last : LastContext r context) :
    popFrame v cpu = some context ↔ cpu.esp + 68#32 = context.esp ∧ cpu.ss = context.ss ∧
      ∀ word ∈ poppedWords, (load32 v (cpu.esp + BitVec.ofNat 32 (4 * word.1))).setWidth (8 * word.2) =
        (r.words.getD word.1 0#32).setWidth (8 * word.2) := by
  obtain ⟨registers, kernel⟩ := context_registers r context last
  have privilege : context.cs &&& 3#16 = 0#16 := by
    rw [kernel]
    rfl
  cases context
  simp only [freshContext, Cpu.mk.injEq] at registers privilege
  obtain ⟨rfl, rfl, rfl, rfl, rfl, rfl, rfl, -, rfl, rfl, rfl, rfl, rfl, rfl, rfl, -⟩ := registers
  simp only [popFrame, Option.ite_none_right_eq_some, Option.some.injEq, Cpu.mk.injEq, poppedWords,
    List.forall_mem_cons, List.not_mem_nil, IsEmpty.forall_iff, implies_true, Regs.words,
    List.getD_cons_zero, List.getD_cons_succ, Nat.reduceMul, BitVec.add_assoc, BitVec.reduceAdd,
    BitVec.add_zero, BitVec.setWidth_eq, and_true]
  constructor
  · rintro ⟨_, gs, fs, es, ds, edi, esi, ebp, esp, ebx, edx, ecx, eax, eip, cs, eflags, ss⟩
    exact ⟨esp, ss, gs, fs, es, ds, edi, esi, ebp, ebx, edx, ecx, eax, eip, cs, eflags⟩
  · rintro ⟨esp, ss, gs, fs, es, ds, edi, esi, ebp, ebx, edx, ecx, eax, eip, cs, eflags⟩
    exact ⟨by rw [cs]; exact privilege, gs, fs, es, ds, edi, esi, ebp, esp, ebx, edx, ecx, eax, eip, cs,
      eflags, ss⟩

section Frame
variable (pageFrame : PageFrame) (returnTo : Word) (frames : CFrames) (m : Memory) (cpu : Cpu) (directory : Word)

theorem called_apply (next x : Word) (inside : frames.Window cpu.esp x) :
    handlerEntered pageFrame returnTo frames m cpu none 32 directory (translate pageFrame next x) =
      if InSpan (cpu.esp - BitVec.ofNat 32 (4 * (19 + frames.words.length))) (4 * (19 + frames.words.length)) x ∧
        translate pageFrame directory x = translate pageFrame next x then
        wordsByte (interruptWords cpu none 32 returnTo ++ frames.words).reverse
          (x - (cpu.esp - BitVec.ofNat 32 (4 * (19 + frames.words.length)))).toNat
      else m (translate pageFrame next x) := by
  have few := frames.within
  have shallow := frames.room
  have length : (interruptWords cpu none 32 returnTo ++ frames.words).length = 19 + frames.words.length := by
    rw [List.length_append, interrupt_words_length returnTo cpu none 32 matched_timer]
  rw [handler_entered_words]
  have result := pushes_apply _ _ (translate_keeps_offset pageFrame directory)
    (translate_keeps_offset pageFrame next) (cpu.esp - BitVec.ofNat 32 (76 + 4 * frames.depth))
    (interruptWords cpu none 32 returnTo ++ frames.words) m cpu.esp x (window_near frames cpu.esp x inside)
    (by rw [length]; constructor <;> bv_omega)
  rwa [length] at result

variable (r : Regs)

def written : Memory :=
  storeWords (translate pageFrame directory) (handlerEntered pageFrame returnTo frames m cpu none 32 directory)
    (cpu.esp - 68#32) r.words

theorem written_apply (next x : Word) (inside : frames.Window cpu.esp x) :
    written pageFrame returnTo frames m cpu directory r (translate pageFrame next x) =
      if InSpan (cpu.esp - 68#32) 76 x ∧ translate pageFrame directory x = translate pageFrame next x then
        wordsByte r.words (x - (cpu.esp - 68#32)).toNat
      else handlerEntered pageFrame returnTo frames m cpu none 32 directory (translate pageFrame next x) := by
  have shallow := frames.room
  refine store_words_apply _ _ (translate_keeps_offset pageFrame directory)
    (translate_keeps_offset pageFrame next) (cpu.esp - BitVec.ofNat 32 (76 + 4 * frames.depth)) r.words _ _ x
    (window_near frames cpu.esp x inside) ?_
  rw [regs_words_length]
  bv_omega

theorem written_elsewhere (next x : Word) (inside : frames.Window cpu.esp x)
    (other : translate pageFrame directory x ≠ translate pageFrame next x) :
    written pageFrame returnTo frames m cpu directory r (translate pageFrame next x) =
      m (translate pageFrame next x) := by
  rw [written_apply _ _ _ _ _ _ _ _ _ inside, if_neg fun both => other both.2, called_apply _ _ _ _ _ _ _ _ inside,
    if_neg fun both => other both.2]

theorem written_word (next : Word) (k : Nat) (bound : k < 19) : ∀ i < 4,
    written pageFrame returnTo frames m cpu directory r (translate pageFrame next
        (cpu.esp - 68#32 + BitVec.ofNat 32 (4 * k) + BitVec.ofNat 32 i)) =
      if translate pageFrame directory (cpu.esp - 68#32 + BitVec.ofNat 32 (4 * k) + BitVec.ofNat 32 i) =
          translate pageFrame next (cpu.esp - 68#32 + BitVec.ofNat 32 (4 * k) + BitVec.ofNat 32 i) then
        byteLane (r.words.getD k 0#32) i
      else m (translate pageFrame next
        (cpu.esp - 68#32 + BitVec.ofNat 32 (4 * k) + BitVec.ofNat 32 i)) := by
  intro i lane
  have shallow := frames.room
  generalize here : cpu.esp - 68#32 + BitVec.ofNat 32 (4 * k) + BitVec.ofNat 32 i = x
  have distance : (x - (cpu.esp - 68#32)).toNat = 4 * k + i := by
    bv_omega
  have inside : frames.Window cpu.esp x := by
    unfold CFrames.Window InSpan
    bv_omega
  by_cases shared : translate pageFrame directory x = translate pageFrame next x
  · rw [written_apply _ _ _ _ _ _ _ _ _ inside, if_pos ⟨by unfold InSpan; omega, shared⟩, if_pos shared, distance,
      words_byte_word _ _ _ lane]
  · rw [written_elsewhere _ _ _ _ _ _ _ _ _ inside shared, if_neg shared]

theorem written_below (next : Word) (k : Nat) (low : 17 ≤ k) (bound : k < 19 + frames.words.length) : ∀ i < 4,
    written pageFrame returnTo frames m cpu directory r (translate pageFrame next
        (cpu.esp - BitVec.ofNat 32 (4 * (k + 1)) + BitVec.ofNat 32 i)) =
      if translate pageFrame directory (cpu.esp - BitVec.ofNat 32 (4 * (k + 1)) + BitVec.ofNat 32 i) =
          translate pageFrame next (cpu.esp - BitVec.ofNat 32 (4 * (k + 1)) + BitVec.ofNat 32 i) then
        byteLane ((interruptWords cpu none 32 returnTo ++ frames.words).getD k 0#32) i
      else m (translate pageFrame next (cpu.esp - BitVec.ofNat 32 (4 * (k + 1)) + BitVec.ofNat 32 i)) := by
  intro i lane
  have few := frames.within
  have shallow := frames.room
  have length : (interruptWords cpu none 32 returnTo ++ frames.words).length = 19 + frames.words.length := by
    rw [List.length_append, interrupt_words_length returnTo cpu none 32 matched_timer]
  have place := pushed_place _ _ (translate_keeps_offset pageFrame directory) (translate_keeps_offset pageFrame next)
    (interruptWords cpu none 32 returnTo ++ frames.words) m cpu.esp (by omega) k (by omega) i lane
  rw [← handler_entered_words] at place
  have inside : frames.Window cpu.esp (cpu.esp - BitVec.ofNat 32 (4 * (k + 1)) + BitVec.ofNat 32 i) := by
    unfold CFrames.Window InSpan
    bv_omega
  have beneath : ¬ InSpan (cpu.esp - 68#32) 76 (cpu.esp - BitVec.ofNat 32 (4 * (k + 1)) + BitVec.ofNat 32 i) := by
    unfold InSpan
    bv_omega
  rw [written_apply _ _ _ _ _ _ _ _ _ inside, if_neg fun both => beneath both.1, place]

theorem written_return (next : Word) : ∀ i < 4,
    written pageFrame returnTo frames m cpu directory r (translate pageFrame next
        (cpu.esp - 76#32 + BitVec.ofNat 32 i)) =
      if translate pageFrame directory (cpu.esp - 76#32 + BitVec.ofNat 32 i) =
          translate pageFrame next (cpu.esp - 76#32 + BitVec.ofNat 32 i) then byteLane returnTo i
      else m (translate pageFrame next (cpu.esp - 76#32 + BitVec.ofNat 32 i)) :=
  written_below pageFrame returnTo frames m cpu directory r next 18 (by decide) (by omega)

theorem written_argument (next : Word) : ∀ i < 4,
    written pageFrame returnTo frames m cpu directory r (translate pageFrame next
        (cpu.esp - 72#32 + BitVec.ofNat 32 i)) =
      if translate pageFrame directory (cpu.esp - 72#32 + BitVec.ofNat 32 i) =
          translate pageFrame next (cpu.esp - 72#32 + BitVec.ofNat 32 i) then byteLane (cpu.esp - 68#32) i
      else m (translate pageFrame next (cpu.esp - 72#32 + BitVec.ofNat 32 i)) := by
  have argument := written_below pageFrame returnTo frames m cpu directory r next 17 (Nat.le_refl 17) (by omega)
  rw [interrupt_words_matched returnTo cpu none 32 matched_timer] at argument
  exact argument

theorem written_frame (next : Word) (k : Nat) (bound : k < frames.words.length) : ∀ i < 4,
    written pageFrame returnTo frames m cpu directory r (translate pageFrame next
        (cpu.esp - 76#32 - BitVec.ofNat 32 (4 * (k + 1)) + BitVec.ofNat 32 i)) =
      if translate pageFrame directory (cpu.esp - 76#32 - BitVec.ofNat 32 (4 * (k + 1)) + BitVec.ofNat 32 i) =
          translate pageFrame next (cpu.esp - 76#32 - BitVec.ofNat 32 (4 * (k + 1)) + BitVec.ofNat 32 i) then
        byteLane (frames.words.getD k 0#32) i
      else m (translate pageFrame next
        (cpu.esp - 76#32 - BitVec.ofNat 32 (4 * (k + 1)) + BitVec.ofNat 32 i)) := by
  have few := frames.within
  have shallow := frames.room
  have place : cpu.esp - 76#32 - BitVec.ofNat 32 (4 * (k + 1)) = cpu.esp - BitVec.ofNat 32 (4 * (19 + k + 1)) := by
    bv_omega
  have length := interrupt_words_length returnTo cpu none 32 matched_timer
  have word : (interruptWords cpu none 32 returnTo ++ frames.words).getD (19 + k) 0#32 =
      frames.words.getD k 0#32 := by
    rw [List.getD_append_right _ _ _ _ (by omega), length, Nat.add_sub_cancel_left]
  rw [place, ← word]
  exact written_below pageFrame returnTo frames m cpu directory r next (19 + k) (by omega) (by omega)

/-- The two words above the frame are written as well: nothing outside the
frame changes exactly if they held what is written. -/
theorem written_outside :
    (∀ p, ¬ frames.Region (translate pageFrame directory) cpu.esp p →
      written pageFrame returnTo frames m cpu directory r p = m p) ↔
    load32 (through (translate pageFrame directory) m) cpu.esp = r.useresp ∧
      load32 (through (translate pageFrame directory) m) (cpu.esp + 4#32) = r.ss := by
  have useresp : cpu.esp - 68#32 + BitVec.ofNat 32 (4 * 17) = cpu.esp := by bv_omega
  have ss : cpu.esp - 68#32 + BitVec.ofNat 32 (4 * 18) = cpu.esp + 4#32 := by bv_omega
  have first := written_word pageFrame returnTo frames m cpu directory r directory 17 (by decide)
  have second := written_word pageFrame returnTo frames m cpu directory r directory 18 (by decide)
  rw [useresp] at first
  rw [ss] at second
  simp only [if_true] at first second
  have shallow := frames.room
  constructor
  · intro kept
    -- within one page's length different addresses have different places
    have apart : ∀ x, (x - cpu.esp).toNat < 8 →
        ¬ frames.Region (translate pageFrame directory) cpu.esp (translate pageFrame directory x) := by
      rintro x above ⟨y, inside, shared⟩
      have window : frames.Window cpu.esp x := by
        unfold CFrames.Window InSpan
        bv_omega
      have near : InSpan (cpu.esp - BitVec.ofNat 32 (76 + 4 * frames.depth)) 4096 y := by
        unfold CFrames.Below InSpan at *
        omega
      have same := same_address _ _ (translate_keeps_offset pageFrame directory)
        (translate_keeps_offset pageFrame directory) _ x y (window_near frames cpu.esp x window) near shared
      rw [same] at inside
      unfold CFrames.Below InSpan at inside
      bv_omega
    constructor
    · apply load32_laid
      intro i lane
      rw [through_apply, ← kept _ (apart _ (by bv_omega)), first i lane]
      rfl
    · apply load32_laid
      intro i lane
      rw [through_apply, ← kept _ (apart _ (by bv_omega)), second i lane]
      rfl
  · rintro ⟨sameUseresp, sameSs⟩ p outside
    -- the structure is two words longer than the frame that was pushed
    by_cases above : Behind (translate pageFrame directory) cpu.esp 8 p
    · obtain ⟨x, inside, rfl⟩ := above
      unfold InSpan at inside
      by_cases low : (x - cpu.esp).toNat < 4
      · have here : x = cpu.esp + BitVec.ofNat 32 (x - cpu.esp).toNat := by bv_omega
        have lane := byte_lane_load32 (through (translate pageFrame directory) m) cpu.esp _ low
        rw [← here, through_apply, sameUseresp] at lane
        rw [← lane]
        have value := first _ low
        rw [← here] at value
        exact value
      · have high : (x - cpu.esp).toNat - 4 < 4 := by omega
        have here : x = cpu.esp + 4#32 + BitVec.ofNat 32 ((x - cpu.esp).toNat - 4) := by bv_omega
        have lane := byte_lane_load32 (through (translate pageFrame directory) m) (cpu.esp + 4#32) _ high
        rw [← here, through_apply, sameSs] at lane
        rw [← lane]
        have value := second _ high
        rw [← here] at value
        exact value
    · have away : ¬ Behind (translate pageFrame directory) (cpu.esp - 68#32) (4 * r.words.length) p := by
        rintro ⟨x, inside, here⟩
        rw [regs_words_length] at inside
        unfold InSpan at inside
        by_cases high : (x - cpu.esp).toNat < 8
        · exact above ⟨x, high, here⟩
        · exact outside ⟨x, by unfold CFrames.Below InSpan; bv_omega, here⟩
      rw [written, store_words_outside _ _ _ _ p (by rw [regs_words_length]; decide) away,
        handler_entered_outside pageFrame returnTo m cpu none 32 directory matched_timer frames p outside]

def returned (next : Word) : Memory :=
  storesBelow (translate pageFrame next) (written pageFrame returnTo frames m cpu directory r) (cpu.esp - 76#32)
    frames.later

theorem returned_above (next x : Word) (above : InSpan (cpu.esp - 76#32) 84 x) :
    returned pageFrame returnTo frames m cpu directory r next (translate pageFrame next x) =
      written pageFrame returnTo frames m cpu directory r (translate pageFrame next x) := by
  have shallow := frames.room
  exact stores_below_above _ _ (translate_keeps_offset pageFrame next) (translate_keeps_offset pageFrame next) _
    frames.depth frames.later _ frames.laterWithin 84 (by omega) x above

/-- The words that are written through the next directory change nothing more, or
what they do is in the frames as well. -/
theorem returned_outside (next : Word) :
    (∀ p, ¬ frames.Region (translate pageFrame directory) cpu.esp p →
      returned pageFrame returnTo frames m cpu directory r next p = m p) ↔
    (∀ p, ¬ frames.Region (translate pageFrame directory) cpu.esp p →
      written pageFrame returnTo frames m cpu directory r p = m p) ∧
    ∀ store ∈ frames.later, ∀ i < 4,
      frames.Region (translate pageFrame directory) cpu.esp (translate pageFrame next
        (cpu.esp - 76#32 - BitVec.ofNat 32 (4 * (store.1 + 1)) + BitVec.ofNat 32 i)) ∨
      m (translate pageFrame next
        (cpu.esp - 76#32 - BitVec.ofNat 32 (4 * (store.1 + 1)) + BitVec.ofNat 32 i)) = byteLane store.2 i := by
  have shallow := frames.room
  have placed := stores_below_place _ (translate_keeps_offset pageFrame next) (cpu.esp - 76#32) frames.depth
    frames.later (written pageFrame returnTo frames m cpu directory r) frames.laterWithin (by omega) frames.distinct
  have missed := stores_below_missed (translate pageFrame next) (cpu.esp - 76#32) frames.later
    (written pageFrame returnTo frames m cpu directory r)
  constructor
  · intro kept
    refine ⟨fun p outside => ?_, fun store member i lane => ?_⟩
    · by_cases hit : ∃ store ∈ frames.later, ∃ i < 4, p = translate pageFrame next
          (cpu.esp - 76#32 - BitVec.ofNat 32 (4 * (store.1 + 1)) + BitVec.ofNat 32 i)
      · obtain ⟨store, member, i, lane, rfl⟩ := hit
        have deep := frames.laterWithin store member
        generalize here : cpu.esp - 76#32 - BitVec.ofNat 32 (4 * (store.1 + 1)) + BitVec.ofNat 32 i = x at outside ⊢
        refine written_elsewhere _ _ _ _ _ _ _ _ _ (by unfold CFrames.Window InSpan; bv_omega) fun shared => ?_
        exact outside ⟨x, by unfold CFrames.Below InSpan; bv_omega, shared⟩
      · rw [← kept p outside]
        refine (missed p fun store member i lane same => hit ⟨store, member, i, lane, same⟩).symm
    · by_cases inFrames : frames.Region (translate pageFrame directory) cpu.esp (translate pageFrame next
          (cpu.esp - 76#32 - BitVec.ofNat 32 (4 * (store.1 + 1)) + BitVec.ofNat 32 i))
      · exact Or.inl inFrames
      · exact Or.inr ((kept _ inFrames).symm.trans (placed store member i lane))
  · rintro ⟨kept, safe⟩ p outside
    by_cases hit : ∃ store ∈ frames.later, ∃ i < 4, p = translate pageFrame next
        (cpu.esp - 76#32 - BitVec.ofNat 32 (4 * (store.1 + 1)) + BitVec.ofNat 32 i)
    · obtain ⟨store, member, i, lane, rfl⟩ := hit
      exact (placed store member i lane).trans ((safe store member i lane).resolve_left outside).symm
    · exact (missed p fun store member i lane same => hit ⟨store, member, i, lane, same⟩).trans (kept p outside)

end Frame

/-! What the timer does when a switch is due. -/

theorem dispatch_regs (s : Scheduler) (i : Int) (r : Regs) :
    (dispatch s i r).2 =
      if i ≠ s.curProcIndex ∨ s.isFirstRun = true then (s.procArr i).lastStateRegs else r := by
  unfold dispatch
  cases first : s.isFirstRun with
  | true => simp
  | false =>
      by_cases current : i = s.curProcIndex
      · subst current
        simp
      · simp [current]

theorem next_unique (s : Scheduler) (d : Int) (positive : 0 < d) (taken : s.Taken (s.slotBehind d))
    (skipped : ∀ e, 0 < e → e < d → ¬ s.Taken (s.slotBehind e)) (i : Int) :
    s.Next i ↔ i = s.slotBehind d := by
  constructor
  · rintro ⟨k, first, rfl, found, passed⟩
    have same : k = d := by
      rcases Int.lt_trichotomy k d with before | here | behind
      · exact absurd found (skipped k first before)
      · exact here
      · exact absurd taken (passed d positive behind)
    rw [same]
  · rintro rfl
    exact ⟨d, positive, rfl, taken, skipped⟩

theorem handler_due (t : Timer) (s sched : Scheduler) (r regs : Regs) (slice : Word) (due : t.Due)
    (started : startNextProcess s r = some (sched, regs, slice)) :
    timerHandler t s r = some (⟨0#32, t.freq, slice⟩, sched, regs) := by
  unfold Timer.Due at due
  simp only [timerHandler, if_pos due, started, Option.bind_eq_bind, Option.bind_some, setTimeSlice]

section Switch
variable (pageFrame : PageFrame) (returnTo : Word) (frames : CFrames) (m : Memory) (cpu : Cpu) (timer : Timer)
  (sched : Scheduler)

theorem irq0_eq (kernel : cpu.cs = 0x08#16) :
    irq0 pageFrame returnTo frames m cpu timer sched = (do
      let t := translate pageFrame sched.currentDirectory
      let saved := interruptedRegs cpu (load32 (through t m) cpu.esp)
        (load32 (through t m) (cpu.esp + 4#32))
      let (timer', sched', r) ← timerHandler timer sched saved
      let e := translate pageFrame sched'.currentDirectory
      let after := returned pageFrame returnTo frames m cpu sched.currentDirectory r sched'.currentDirectory
      if frames.Found (through e (written pageFrame returnTo frames m cpu sched.currentDirectory r))
          (cpu.esp - 76#32) then do
        if load32 (through e after) (cpu.esp - 76#32) = returnTo then do
          let cpu' ← popFrame (through e after) { cpu with esp := cpu.esp - 68#32 }
          some (after, cpu', timer', sched')
        else none
      else none) := by
  have privilege : cpu.cs &&& 3#16 = 0#16 := by
    rw [kernel]
    rfl
  have frame : cpu.esp - 76#32 + 8#32 = cpu.esp - 68#32 := by bv_omega
  have top := interrupt_top pageFrame returnTo m cpu none 32 sched.currentDirectory matched_timer
  have regs := handler_regs pageFrame returnTo m cpu none 32 sched.currentDirectory matched_timer frames
  unfold irq0 interrupt
  rw [if_pos privilege]
  simp only [top, frame, regs]
  show (timerHandler timer sched (interruptedRegs cpu _ _) >>= _) >>= _ = timerHandler timer sched _ >>= _
  generalize timerHandler timer sched _ = result
  cases result with
  | none => rfl
  | some result => rfl

theorem next_started (low : 0 ≤ sched.curProcIndex) (high : sched.curProcIndex < MAX_PROC)
    (active : sched.schedulerActive = true) (i : Int) (next : sched.Next i)
    (different : i ≠ sched.curProcIndex) (r : Regs) :
    startNextProcess sched r = some ((dispatch sched i r).1, (sched.procArr i).lastStateRegs,
      timeSlice (sched.procArr i).priorityLevel) := by
  rcases start_next_process_result sched r low high active with
    ⟨d, positive, _, taken, skipped, started⟩ | ⟨nothing, _⟩
  · obtain rfl := (next_unique sched d positive taken skipped i).mp next
    have delivered := dispatch_regs sched (sched.slotBehind d) r
    rw [if_pos (Or.inl different)] at delivered
    rw [started, delivered]
  · obtain ⟨d, _, rfl, taken, _⟩ := next
    exact absurd taken (nothing _)

end Switch

section Switch
variable (pageFrame : PageFrame) (returnTo : Word) (frames : CFrames) (m : Memory) (cpu : Cpu) (timer : Timer)
  (sched : Scheduler) (kernel : cpu.cs = 0x08#16) (due : timer.Due)
  (active : sched.schedulerActive = true) (low : 0 ≤ sched.curProcIndex)
  (high : sched.curProcIndex < MAX_PROC) (i : Int) (next : sched.Next i)
  (different : i ≠ sched.curProcIndex)
include kernel due active low high next different

omit kernel in
theorem handler_switches (r : Regs) :
    timerHandler timer sched r =
      some (⟨0#32, timer.freq, timeSlice (sched.procArr i).priorityLevel⟩, (dispatch sched i r).1,
        (sched.procArr i).lastStateRegs) :=
  handler_due timer sched _ r _ _ due (next_started sched low high active i next different r)

omit kernel due active low high next in
theorem next_directory (r : Regs) :
    (dispatch sched i r).1.currentDirectory = (sched.procArr i).pageDirectory := by
  unfold dispatch
  split
  · rfl
  · simp [different]

/-- A switch has a result if the next directory shows the functions what they need,
and the stub the return address and a frame to pop. -/
theorem irq0_switch (m' : Memory) (context : Cpu) (timer' : Timer) (sched' : Scheduler) :
    irq0 pageFrame returnTo frames m cpu timer sched = some (m', context, timer', sched') ↔
      frames.Found (through (translate pageFrame (sched.procArr i).pageDirectory)
        (written pageFrame returnTo frames m cpu sched.currentDirectory (sched.procArr i).lastStateRegs))
        (cpu.esp - 76#32) ∧
      load32 (through (translate pageFrame (sched.procArr i).pageDirectory)
        (returned pageFrame returnTo frames m cpu sched.currentDirectory (sched.procArr i).lastStateRegs
          (sched.procArr i).pageDirectory)) (cpu.esp - 76#32) = returnTo ∧
      popFrame (through (translate pageFrame (sched.procArr i).pageDirectory)
        (returned pageFrame returnTo frames m cpu sched.currentDirectory (sched.procArr i).lastStateRegs
          (sched.procArr i).pageDirectory)) { cpu with esp := cpu.esp - 68#32 } = some context ∧
      returned pageFrame returnTo frames m cpu sched.currentDirectory (sched.procArr i).lastStateRegs
        (sched.procArr i).pageDirectory = m' ∧
      ⟨0#32, timer.freq, timeSlice (sched.procArr i).priorityLevel⟩ = timer' ∧
      (dispatch sched i (interruptedRegs cpu
        (load32 (through (translate pageFrame sched.currentDirectory) m) cpu.esp)
        (load32 (through (translate pageFrame sched.currentDirectory) m) (cpu.esp + 4#32)))).1 =
        sched' := by
  rw [irq0_eq _ _ _ _ _ _ _ kernel]
  simp only [handler_switches timer sched due active low high i next different,
    next_directory sched i different, Option.bind_eq_bind, Option.bind_some]
  constructor
  · intro result
    obtain ⟨found, rest⟩ := Option.ite_none_right_eq_some.mp result
    obtain ⟨returns, popped⟩ := Option.ite_none_right_eq_some.mp rest
    obtain ⟨cpu', here, same⟩ := Option.bind_eq_some_iff.mp popped
    simp only [Option.some.injEq, Prod.mk.injEq] at same
    obtain ⟨memory, rfl, times, slots⟩ := same
    exact ⟨found, returns, here, memory, times, slots⟩
  · rintro ⟨found, returns, popped, rfl, rfl, rfl⟩
    rw [if_pos found, if_pos returns, popped]
    rfl

end Switch

def kernelCpu (eax esp : Word) : Cpu where
  gs := 0x10#16
  fs := 0x10#16
  es := 0x10#16
  ds := 0x10#16
  edi := 0#32
  esi := 0#32
  ebp := esp
  esp := esp
  ebx := 0#32
  edx := 0#32
  ecx := 0#32
  eax := eax
  eip := 0x101000#32
  cs := 0x08#16
  eflags := 0x202#32
  ss := 0x10#16

def pairScheduler (r : Regs) : Scheduler where
  procArr := fun i =>
    if i = 0 then { (default : Process) with pageDirectory := 0x100000#32, pid := 0#32 }
    else if i = 1 then
      { (default : Process) with pageDirectory := 0x100000#32, pid := 1#32, lastStateRegs := r }
    else { (default : Process) with pid := NO_PROC }
  curProcIndex := 0
  schedulerActive := true
  isFirstRun := false
  currentDirectory := 0x100000#32

theorem pair_next (r : Regs) : (pairScheduler r).Next 1 :=
  ⟨1, by decide, rfl, ⟨by decide, by decide, by simp [pairScheduler, NO_PROC]⟩, fun e first last => by omega⟩

/-- The frames of four functions, of which `write_cr3` is the last: each has its
return address and a saved frame pointer, `start_next_process` the slot it has found
between them; `irq_handler` reads its argument again. A call of `outb` writes below the
return address of the stub's. -/
def timerFrames (ebp : Word) : CFrames where
  words := [ebp, 0x100300#32, ebp - 84#32, 0x100400#32, ebp - 92#32, 1#32, 0x100500#32, ebp - 100#32, 0x100600#32,
    ebp - 112#32]
  needed := fun k => k != 0
  argument := true
  later := [(1, 0x20#32), (2, 0x20#32), (3, 0x100700#32)]
  depth := 10
  within := Nat.le_refl 10
  laterWithin := by decide
  distinct := by decide
  room := by decide

end GargOS
