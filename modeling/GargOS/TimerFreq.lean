import GargOS.Timer

/-!
What `set_timer_freq` sends to the timer chip against the frequency it records.
The chip counts down from a reload value of 16 bits; the guard lets through the
frequencies that need a larger one, and 0.
-/

namespace GargOS
open ByteMemory

def dataBytes (sent : List (Byte × Byte)) : List Byte :=
  (sent.filter fun out => out.1 = 0x40#8).map Prod.snd

/-- A call that leaves the chip alone and keeps the recorded frequency, or
loads the chip, low byte first, with the reload value of the frequency it records. -/
def CallMatches (t : Timer) (hz : Word) (after : Timer) (sent : List (Byte × Byte)) : Prop :=
  (sent = [] ∧ after.freq = t.freq) ∨
  ∃ low high : Byte, dataBytes sent = [low, high] ∧ (high ++ low).toNat = 1193180 / hz.toNat ∧
    1 ≤ (high ++ low).toNat ∧ (high ++ low).toNat ≤ 65535 ∧ after.freq = hz

/-- Every call of the sequence returns and matches. -/
def FreqMatches (t : Timer) : List Word → Prop
  | [] => True
  | hz :: calls => ∃ after sent, setTimerFreq t hz = some (after, sent) ∧ CallMatches t hz after sent ∧
      FreqMatches after calls

/-- The mask and the arithmetic shift are the two bytes of the divisor, a
negative one included. -/
theorem divisor_bytes (divisor : BitVec 16) :
    (divisor.sshiftRight 8).setWidth 8 ++ (divisor &&& 0xFF#16).setWidth 8 = divisor := by
  have mask : ∀ i < 8, (0xFF#16).getLsbD i = true := by decide
  apply BitVec.eq_of_getLsbD_eq
  intro i less
  rw [BitVec.getLsbD_append]
  by_cases low : i < 8
  · rw [if_pos low, BitVec.getLsbD_setWidth, BitVec.getLsbD_and, mask i low]
    simp [low]
  · have bound : i - 8 < 8 := by omega
    have inside : 8 + (i - 8) = i := by omega
    have short : i - 8 < 16 := by omega
    rw [if_neg low, BitVec.getLsbD_setWidth, BitVec.getLsbD_sshiftRight, inside]
    simp [bound, less, short]

theorem set_timer_freq_sends (t : Timer) (hz : Word) (admitted : hz.toNat ≤ 182) (nonzero : hz ≠ 0#32) :
    ∃ low high : Byte,
      setTimerFreq t hz =
        some ({ t with freq := hz }, [(0x43#8, 0x36#8), (0x40#8, low), (0x40#8, high)]) ∧
      (high ++ low).toNat = 1193180 / hz.toNat % 65536 := by
  have guard : ¬ hz > BitVec.ofNat 32 (11931080 / 65335) := by
    rw [gt_iff_lt, BitVec.lt_def]
    have limit : (BitVec.ofNat 32 (11931080 / 65335)).toNat = 182 := by decide
    omega
  refine ⟨_, _, by rw [setTimerFreq, if_neg guard, if_neg nonzero], ?_⟩
  rw [divisor_bytes, BitVec.toNat_setWidth, BitVec.toNat_udiv]
  rfl

theorem set_timer_freq_ignored (t : Timer) (hz : Word) (fast : 182 < hz.toNat) :
    setTimerFreq t hz = some (t, []) := by
  have guard : hz > BitVec.ofNat 32 (11931080 / 65335) := by
    rw [gt_iff_lt, BitVec.lt_def]
    have limit : (BitVec.ofNat 32 (11931080 / 65335)).toNat = 182 := by decide
    omega
  rw [setTimerFreq, if_pos guard]

theorem reload_value_fits (hz : Nat) (positive : 0 < hz) : 1193180 / hz < 65536 ↔ 19 ≤ hz := by
  rw [Nat.div_lt_iff_lt_mul positive]
  omega

theorem call_matches_iff (t : Timer) (hz : Word) :
    (∃ after sent, setTimerFreq t hz = some (after, sent) ∧ CallMatches t hz after sent) ↔
      19 ≤ hz.toNat := by
  by_cases fast : 182 < hz.toNat
  · refine iff_of_true ⟨t, [], set_timer_freq_ignored t hz fast, Or.inl ⟨rfl, rfl⟩⟩ (by omega)
  by_cases zero : hz = 0#32
  · subst zero
    refine iff_of_false ?_ (by decide)
    rintro ⟨after, sent, returned, _⟩
    exact absurd returned (by simp [setTimerFreq])
  have positive : 0 < hz.toNat := by
    rcases Nat.eq_zero_or_pos hz.toNat with none | some
    · exact absurd (BitVec.eq_of_toNat_eq none) zero
    · exact some
  obtain ⟨low, high, done, value⟩ := set_timer_freq_sends t hz (by omega) zero
  have fits := reload_value_fits hz.toNat positive
  have least : 1 ≤ 1193180 / hz.toNat := (Nat.le_div_iff_mul_le positive).mpr (by omega)
  constructor
  · rintro ⟨after, sent, returned, matched⟩
    rw [done] at returned
    obtain ⟨rfl, rfl⟩ := Prod.mk.inj (Option.some.inj returned)
    rcases matched with ⟨nothing, _⟩ | ⟨first, second, data, quotient, _, bound, _⟩
    · simp at nothing
    · exact fits.mp (by omega)
  · intro slow
    have exact_value : (high ++ low).toNat = 1193180 / hz.toNat := by
      rw [value, Nat.mod_eq_of_lt (fits.mpr slow)]
    have bound := fits.mpr slow
    exact ⟨_, _, done, Or.inr ⟨low, high, rfl, exact_value, by omega, by omega, rfl⟩⟩

/-- The chip runs at the recorded frequency after every call exactly when none
asks for less than 19 Hz. -/
theorem freq_matches_iff (t : Timer) (calls : List Word) :
    FreqMatches t calls ↔ ∀ hz ∈ calls, 19 ≤ hz.toNat := by
  induction calls generalizing t with
  | nil => simp [FreqMatches]
  | cons hz calls ih =>
      rw [List.forall_mem_cons, ← call_matches_iff t hz, FreqMatches]
      constructor
      · rintro ⟨after, sent, returned, matched, later⟩
        exact ⟨⟨after, sent, returned, matched⟩, (ih after).mp later⟩
      · rintro ⟨⟨after, sent, returned, matched⟩, later⟩
        exact ⟨after, sent, returned, matched, (ih after).mpr later⟩

/-- The first call divides by zero. -/
theorem freq_zero_faults : ¬ ∀ calls, FreqMatches bootTimer calls := by
  intro all
  obtain ⟨after, sent, returned, _⟩ := all [0#32]
  exact absurd returned (by simp [setTimerFreq])

end GargOS
