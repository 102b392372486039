import GargOS.PciScan

/-!
Which functions the kernel's scan looks at, and when it adds the same controllers
as the loader's. It reads one byte of a vendor and compares it with 0xFFFF, so it
takes no function for absent; and it does not get past a controller that keeps
`add_uhci` waiting.
-/

namespace GargOS
open ByteMemory ByteLanes StoppedCalls

namespace Kernel

/-- The kernel's scan, with its calls of `check_function` in the place of those
of `add_uhci`. -/
def visitor (addUhci : AddUhci) : Scanner :=
  ⟨getVendorID, getHeaderType, fun s bus device function =>
    let visits := s.added ++ [(bus, device, function)]
    match checkFunction addUhci s bus device function with
    | .ok after => .ok ⟨after.ports, visits⟩
    | .error last => .error ⟨last.ports, visits⟩⟩

def visits (addUhci : AddUhci) (p : ConfigPorts) : List (Byte × Byte × Byte) :=
  (reached ((visitor addUhci).checkAllBuses ⟨p, []⟩)).added

end Kernel

def vendorOf (content : Word → Word) (bus device function : Byte) : BitVec 16 :=
  contentByte content bus device function 1#8 ++ contentByte content bus device function 0#8

def FunctionPresent (content : Word → Word) (bus device function : Byte) : Prop :=
  vendorOf content bus device function ≠ 0xFFFF#16

def MultiFunction (content : Word → Word) (bus device : Byte) : Prop :=
  contentByte content bus device 0#8 0xE#8 &&& 0x80#8 ≠ 0#8

instance (content : Word → Word) (bus device : Byte) : Decidable (MultiFunction content bus device) :=
  inferInstanceAs (Decidable (_ ≠ _))

/-- A function that the loops of a scan come to, present or not. -/
def Scanned (content : Word → Word) (bus device function : Byte) : Prop :=
  device.toNat < 32 ∧ (function = 0#8 ∨
    (1 ≤ function.toNat ∧ function.toNat ≤ 7) ∧ MultiFunction content bus device)

def ToVisit (content : Word → Word) (bus device function : Byte) : Prop :=
  device.toNat < 32 ∧ FunctionPresent content bus device 0#8 ∧
    (function = 0#8 ∨ (1 ≤ function.toNat ∧ function.toNat ≤ 7) ∧ MultiFunction content bus device ∧
      FunctionPresent content bus device function)

/-- Bus, device and function in the order of the three loops. -/
def Before (first second : Byte × Byte × Byte) : Prop :=
  first.1 < second.1 ∨ first.1 = second.1 ∧ (first.2.1 < second.2.1 ∨
    first.2.1 = second.2.1 ∧ first.2.2 < second.2.2)

/-- Each function that is to be looked at once, in increasing order, and no other. -/
structure VisitsExisting (content : Word → Word) (visits : List (Byte × Byte × Byte)) : Prop where
  increasing : visits.Pairwise Before
  existing : ∀ bus device function, (bus, device, function) ∈ visits ↔
    ToVisit content bus device function

/-- A controller that the loops come to. -/
def ScannedUhci (content : Word → Word) (t : Byte × Byte × Byte) : Prop :=
  Scanned content t.1 t.2.1 t.2.2 ∧ IsUhci content t.1 t.2.1 t.2.2

def Answers (status : Byte → Byte → Byte → Nat → BitVec 16) (t : Byte × Byte × Byte) : Prop :=
  ∃ n ≥ 1, status t.1 t.2.1 t.2.2 n &&& 0x0040#16 ≠ 0#16

/-- No controller before the function keeps the scan waiting. -/
def Undisturbed (status : Byte → Byte → Byte → Nat → BitVec 16) (content : Word → Word) (t : Byte × Byte × Byte) :
    Prop :=
  ∀ u, ScannedUhci content u → Before u t → Answers status u

theorem before_asymmetric (t u : Byte × Byte × Byte) (before : Before t u) : ¬ Before u t := by
  unfold Before at before ⊢
  simp only [BitVec.lt_def, ← BitVec.toNat_inj] at before ⊢
  omega

theorem before_trans (t u v : Byte × Byte × Byte) (first : Before t u) (second : Before u v) : Before t v := by
  unfold Before at first second ⊢
  simp only [BitVec.lt_def, ← BitVec.toNat_inj] at first second ⊢
  omega

theorem stop_seen_iff (status : Nat → BitVec 16) (n fuel : Nat) :
    Kernel.stopSeen status n fuel = true ↔ ∃ k < fuel, status (n + k) &&& 0x0040#16 ≠ 0#16 := by
  induction fuel generalizing n with
  | zero => simp [Kernel.stopSeen]
  | succ fuel ih =>
      rw [Kernel.stopSeen]
      split
      next clear =>
        rw [ih]
        constructor
        · rintro ⟨k, less, bit⟩
          exact ⟨k + 1, by omega, by rwa [Nat.add_right_comm] at bit⟩
        · rintro ⟨k, less, bit⟩
          cases k with
          | zero => exact absurd clear bit
          | succ k => exact ⟨k, by omega, by rwa [Nat.add_right_comm]⟩
      next bit => exact ⟨fun _ => ⟨0, Nat.succ_pos fuel, bit⟩, fun _ => rfl⟩

/-- With enough rounds only those wait that would wait for ever. -/
theorem waiting_settles (status : Byte → Byte → Byte → Nat → BitVec 16) (xs : List (Byte × Byte × Byte)) :
    ∃ enough, ∀ fuel ≥ enough, ∀ t ∈ xs, waiting status fuel t = false ↔ Answers status t := by
  refine bound_for_all (fun t fuel => waiting status fuel t = false ↔ Answers status t) xs fun t _ => ?_
  have seen := fun fuel => stop_seen_iff (status t.1 t.2.1 t.2.2) 1 fuel
  simp only [waiting, Bool.not_eq_false', seen]
  by_cases answers : Answers status t
  · obtain ⟨n, positive, bit⟩ := id answers
    refine ⟨n, fun fuel large => iff_of_true ⟨n - 1, by omega, ?_⟩ answers⟩
    rwa [Nat.add_sub_cancel' positive]
  · refine ⟨0, fun fuel _ => iff_of_false ?_ answers⟩
    rintro ⟨k, _, bit⟩
    exact answers ⟨1 + k, Nat.le_add_right 1 k, bit⟩

def visitAt (bus device function : Byte) : List (Byte × Byte × Byte) := [(bus, device, function)]

theorem visitor_finds (addUhci : AddUhci) (content : Word → Word) (stops : Byte × Byte × Byte → Bool)
    (adds : AddsUhci addUhci content stops) : (Kernel.visitor addUhci).Finds content visitAt
      fun t => decide (IsUhci content t.1 t.2.1 t.2.2) && stops t := by
  have finds := kernel_finds addUhci content stops adds
  constructor
  · intro p registers bus device function _ _
    obtain ⟨kept, some⟩ := kernel_vendor p bus device function
    exact ⟨kept.trans registers, fun ones => absurd ones some⟩
  · exact finds.header
  · intro s registers bus device function
    have checked : Scans content stops s (uhciAt content bus device function)
        (Kernel.checkFunction addUhci s bus device function) := finds.function s registers bus device function
    simp only [Kernel.visitor]
    generalize Kernel.checkFunction addUhci s bus device function = result at checked
    cases checked with
    | returned after held logged returns =>
        refine .returned _ held rfl fun t member => ?_
        rw [List.mem_singleton.mp member, Bool.and_eq_false_iff, decide_eq_false_iff_not]
        by_cases uhci : IsUhci content bus device function
        · exact Or.inr (returns _ (by rw [uhciAt, if_pos uhci]; exact List.mem_singleton_self _))
        · exact Or.inl uhci
    | stopped last logged stop =>
        obtain ⟨t, member, here⟩ := stop
        rw [uhciAt] at member
        split at member
        next uhci =>
          rw [List.mem_singleton.mp member] at here
          have stop : (decide (IsUhci content bus device function) && stops (bus, device, function)) = true :=
            Bool.and_eq_true_iff.mpr ⟨decide_eq_true uhci, here⟩
          refine .stopped _ ?_ ⟨_, List.mem_singleton_self _, stop⟩
          rw [visitAt, called, stop, if_pos rfl]
        next => exact absurd member List.not_mem_nil

/-- All functions that the loops come to, in order. -/
def busesVisits (content : Word → Word) : List (Byte × Byte × Byte) := busesFound content visitAt 256

theorem kernel_visits (addUhci : AddUhci) (content : Word → Word) (stops : Byte × Byte × Byte → Bool)
    (adds : AddsUhci addUhci content stops) (selected : Word) : Kernel.visits addUhci ⟨selected, content⟩ =
      called (fun t => decide (IsUhci content t.1 t.2.1 t.2.2) && stops t) (busesVisits content) := by
  have scans := check_buses_scans _ content _ _ (visitor_finds addUhci content stops adds)
    ⟨⟨selected, content⟩, []⟩ rfl 256
  have logged := makes_log _ _ _ _ _ _ scans
  rw [Kernel.visits, Scanner.checkAllBuses, busesVisits, logged, List.nil_append]

section Visited
variable (content : Word → Word)

theorem byte_of_nat (i : Nat) (small : i < 256) (b : Byte) : BitVec.ofNat 8 i = b ↔ i = b.toNat := by
  rw [← BitVec.toNat_inj, BitVec.toNat_ofNat, Nat.mod_eq_of_lt small]

theorem mem_device_visits (bus device a b function : Byte) :
    (a, b, function) ∈ deviceFound content visitAt bus device ↔
      a = bus ∧ b = device ∧ (function = 0#8 ∨
        (1 ≤ function.toNat ∧ function.toNat ≤ 7) ∧ MultiFunction content bus device) := by
  have further : (a, b, function) ∈ furtherFound visitAt
      bus device 7 ↔ a = bus ∧ b = device ∧ 1 ≤ function.toNat ∧ function.toNat ≤ 7 := by
    simp only [furtherFound, visitAt, List.mem_flatMap, List.mem_range, List.mem_singleton, Prod.mk.injEq]
    constructor
    · rintro ⟨i, less, rfl, rfl, rfl⟩
      rw [BitVec.toNat_ofNat]
      exact ⟨rfl, rfl, by omega, by omega⟩
    · rintro ⟨rfl, rfl, low, high⟩
      exact ⟨function.toNat - 1, by omega, rfl, rfl, ((byte_of_nat _ (by omega) _).mpr (by omega)).symm⟩
  rw [deviceFound, List.mem_append, visitAt, List.mem_singleton, Prod.mk.injEq, Prod.mk.injEq]
  have multi : (if contentByte content bus device 0#8 0xE#8 &&& 0x80#8 ≠ 0#8 then
      furtherFound visitAt bus device 7 else []) =
      if MultiFunction content bus device then
        furtherFound visitAt bus device 7 else [] := rfl
  rw [multi]
  split
  next several =>
    rw [further]
    tauto
  next single => simp only [List.not_mem_nil, or_false, single, and_false]

theorem mem_visits (bus device function : Byte) :
    (bus, device, function) ∈ busesVisits content ↔ Scanned content bus device function := by
  simp only [Scanned, busesVisits, busesFound, busFound, List.mem_flatMap, List.mem_range, mem_device_visits]
  constructor
  · rintro ⟨i, _, j, less, rfl, rfl, visited⟩
    refine ⟨?_, visited⟩
    rw [BitVec.toNat_ofNat]
    omega
  · rintro ⟨slots, visited⟩
    have first := (byte_of_nat bus.toNat (by omega) bus).mpr rfl
    have second := (byte_of_nat device.toNat (by omega) device).mpr rfl
    exact ⟨bus.toNat, bus.isLt, device.toNat, slots, first.symm, second.symm, by rwa [first, second]⟩

theorem device_visits_increasing (bus device : Byte) :
    (deviceFound content visitAt bus device).Pairwise Before := by
  have below : ∀ i j, i < j → j < 7 → (BitVec.ofNat 8 (i + 1) : Byte) < BitVec.ofNat 8 (j + 1) := by
    intro i j less small
    rw [BitVec.lt_def, BitVec.toNat_ofNat, BitVec.toNat_ofNat]
    omega
  rw [deviceFound, visitAt, List.singleton_append, List.pairwise_cons]
  constructor
  · intro visit member
    split at member
    · obtain ⟨i, inside, here⟩ := List.mem_flatMap.mp member
      rw [List.mem_range] at inside
      rw [List.mem_singleton.mp here]
      refine Or.inr ⟨rfl, Or.inr ⟨rfl, ?_⟩⟩
      rw [BitVec.lt_def, BitVec.toNat_ofNat, BitVec.toNat_ofNat]
      omega
    · simp at member
  · split
    · rw [furtherFound, List.pairwise_flatMap]
      refine ⟨fun i _ => List.pairwise_singleton _ _, ?_⟩
      refine (List.pairwise_lt_range.imp_of_mem ?_)
      intro i j _ inside less x here y there
      rw [List.mem_singleton.mp here, List.mem_singleton.mp there]
      exact Or.inr ⟨rfl, Or.inr ⟨rfl, below i j less (List.mem_range.mp inside)⟩⟩
    · exact List.Pairwise.nil

theorem visits_increasing :
    (busesVisits content).Pairwise Before := by
  have below : ∀ i j, i < j → j < 256 → (BitVec.ofNat 8 i : Byte) < BitVec.ofNat 8 j := by
    intro i j less small
    rw [BitVec.lt_def, BitVec.toNat_ofNat, BitVec.toNat_ofNat]
    omega
  rw [busesVisits, busesFound, List.pairwise_flatMap]
  constructor
  · intro i _
    rw [busFound, List.pairwise_flatMap]
    refine ⟨fun j _ => device_visits_increasing content _ _, ?_⟩
    refine List.pairwise_lt_range.imp_of_mem ?_
    rintro j k _ inside less ⟨a, b, c⟩ here ⟨a', b', c'⟩ there
    have small := List.mem_range.mp inside
    obtain ⟨rfl, rfl, _⟩ := (mem_device_visits content _ _ a b c).mp here
    obtain ⟨rfl, rfl, _⟩ := (mem_device_visits content _ _ a' b' c').mp there
    exact Or.inr ⟨rfl, Or.inl (below j k less (by omega))⟩
  · refine List.pairwise_lt_range.imp_of_mem ?_
    rintro j k _ inside less ⟨a, b, c⟩ here ⟨a', b', c'⟩ there
    obtain ⟨_, _, first⟩ := List.mem_flatMap.mp here
    obtain ⟨_, _, second⟩ := List.mem_flatMap.mp there
    obtain ⟨rfl, _⟩ := (mem_device_visits content _ _ a b c).mp first
    obtain ⟨rfl, _⟩ := (mem_device_visits content _ _ a' b' c').mp second
    exact Or.inl (below j k less (List.mem_range.mp inside))

end Visited

theorem buses_uhci_filter (content : Word → Word) :
    busesUhci content = (busesVisits content).filter fun t => decide (IsUhci content t.1 t.2.1 t.2.2) := by
  have here : ∀ bus device function, uhciAt content bus device function =
      (visitAt bus device function).filter fun t => decide (IsUhci content t.1 t.2.1 t.2.2) := by
    intro bus device function
    rw [visitAt, List.filter_singleton, uhciAt]
    split <;> simp_all
  have device : ∀ bus device, deviceFound content (uhciAt content) bus device =
      (deviceFound content visitAt bus device).filter fun t => decide (IsUhci content t.1 t.2.1 t.2.2) := by
    intro bus device
    rw [deviceFound, deviceFound, List.filter_append, here]
    split
    · rw [furtherFound, furtherFound, List.filter_flatMap]
      simp only [here]
    · rfl
  rw [busesUhci, busesVisits, busesFound, busesFound, List.filter_flatMap]
  simp only [busFound, List.filter_flatMap, device]

theorem mem_buses_uhci (content : Word → Word) (t : Byte × Byte × Byte) :
    t ∈ busesUhci content ↔ ScannedUhci content t := by
  rw [buses_uhci_filter, List.mem_filter, decide_eq_true_iff, ScannedUhci, ← mem_visits]

/-- With enough rounds of the wait, the functions visited are those that no
waiting controller comes before. -/
theorem visits_settle (flBase0 : Byte → Byte → Byte → Word) (status : Byte → Byte → Byte → Nat → BitVec 16)
    (content : Word → Word) : ∃ enough, ∀ fuel ≥ enough, ∀ selected,
      (Kernel.visits (Kernel.addUhci flBase0 status fuel) ⟨selected, content⟩).Pairwise Before ∧
      ∀ bus device function,
        (bus, device, function) ∈ Kernel.visits (Kernel.addUhci flBase0 status fuel) ⟨selected, content⟩ ↔
          Scanned content bus device function ∧ Undisturbed status content (bus, device, function) := by
  obtain ⟨enough, settled⟩ := waiting_settles status (busesVisits content)
  refine ⟨enough, fun fuel large selected => ?_⟩
  rw [kernel_visits _ content _ (kernel_adds flBase0 status fuel content) selected]
  refine ⟨(visits_increasing content).sublist (called_sublist _ _), fun bus device function => ?_⟩
  rw [mem_called_iff _ Before before_asymmetric _ (visits_increasing content), mem_visits]
  refine and_congr_right fun _ => forall_congr' fun u => ?_
  rw [ScannedUhci, ← mem_visits, and_imp]
  refine forall_congr' fun member => ?_
  rw [Bool.and_eq_false_iff, decide_eq_false_iff_not, settled fuel large u member]
  tauto

/-- What the content and the controllers must be like for the scan to visit what exists. -/
structure ScanFits (status : Byte → Byte → Byte → Nat → BitVec 16) (content : Word → Word) : Prop where
  present : ∀ bus device function, Scanned content bus device function →
    Undisturbed status content (bus, device, function) → FunctionPresent content bus device function
  undisturbed : ∀ bus device function, ToVisit content bus device function →
    Undisturbed status content (bus, device, function)

theorem agree_settles (content : Word → Word) (absent : AbsentReadsOnes content)
    (flBase0 : Byte → Byte → Byte → Word) (status : Byte → Byte → Byte → Nat → BitVec 16)
    (selected selected' : Word) : ∃ enough, ∀ fuel ≥ enough,
      ((reached (Kernel.checkAllBuses (Kernel.addUhci flBase0 status fuel) ⟨⟨selected', content⟩, []⟩)).added =
        (Loader.checkAllBuses Loader.addUhci ⟨⟨selected, content⟩, []⟩).added ↔
      ∀ t u, ScannedUhci content t → ScannedUhci content u → Before t u → Answers status t) := by
  have ordered : (busesUhci content).Pairwise Before := by
    rw [buses_uhci_filter]
    exact (visits_increasing content).filter _
  obtain ⟨enough, settled⟩ := waiting_settles status (busesUhci content)
  refine ⟨enough, fun fuel large => ?_⟩
  rw [kernel_added, loader_added content absent, called_eq_iff _ Before before_asymmetric _ ordered]
  simp only [← mem_buses_uhci]
  constructor
  · intro returns t u first second before
    exact (settled fuel large t first).mp (returns t first u second before)
  · intro answers t first u second before
    exact (settled fuel large t first).mpr (answers t u first second before)

/-- A configuration space with UHCI controllers at these places and nothing else. -/
def controllersAt (places : List (Byte × Byte × Byte)) (a : Word) : Word :=
  if places.any fun t => a = configAddress t.1 t.2.1 t.2.2 0#8 then 0x71128086#32
  else if places.any fun t => a = configAddress t.1 t.2.1 t.2.2 8#8 then 0x0C030001#32
  else 0xFFFFFFFF#32

section Controllers
variable (places : List (Byte × Byte × Byte)) (real : ∀ t ∈ places, t.2.1.toNat < 32 ∧ t.2.2.toNat < 8)
  (bus device function : Byte) (slots : device.toNat < 32) (funcs : function.toNat < 8)
include real slots funcs

theorem controllers_elsewhere (other : (bus, device, function) ∉ places) (offset : Byte) :
    contentByte (controllersAt places) bus device function offset = 0xFF#8 := by
  have ones : ∀ i, i < 4 → byteLane 0xFFFFFFFF#32 i = 0xFF#8 := by decide
  have apart : ∀ known : Byte,
      ¬ (places.any fun t => configAddress bus device function offset = configAddress t.1 t.2.1 t.2.2 known) = true := by
    intro known found
    obtain ⟨t, member, same⟩ := List.any_eq_true.mp found
    obtain ⟨small, few⟩ := real t member
    obtain ⟨first, second, third, _⟩ := config_address_injective t.1 t.2.1 t.2.2 known bus device function offset
      small few slots funcs (of_decide_eq_true same)
    have place : (bus, device, function) = t := Prod.ext first (Prod.ext second third)
    exact other (place ▸ member)
  rw [contentByte, controllersAt, if_neg (apart 0#8), if_neg (apart 8#8)]
  exact ones _ (Nat.mod_lt _ (by decide))

omit real funcs in
theorem controllers_vendor (member : (bus, device, function) ∈ places) (few : function.toNat < 8) :
    vendorOf (controllersAt places) bus device function = 0x8086#16 := by
  have here : controllersAt places (configAddress bus device function 0#8) = 0x71128086#32 := by
    rw [controllersAt, if_pos]
    exact List.any_eq_true.mpr ⟨_, member, decide_eq_true rfl⟩
  have same := config_address_same bus device function 0#8 1#8 slots few rfl
  rw [vendorOf, contentByte, contentByte, same, here]
  rfl

end Controllers

theorem controllers_absent (places : List (Byte × Byte × Byte))
    (real : ∀ t ∈ places, t.2.1.toNat < 32 ∧ t.2.2.toNat < 8) : AbsentReadsOnes (controllersAt places) := by
  intro bus device function slots funcs vendor offset
  refine controllers_elsewhere places real bus device function slots funcs (fun member => ?_) offset
  have known := controllers_vendor places bus device function slots member funcs
  rw [vendorOf, vendor] at known
  exact absurd known (by decide)

def twoPlaces : List (Byte × Byte × Byte) := [(0#8, 1#8, 0#8), (0#8, 2#8, 0#8)]

theorem two_places_cases (t : Byte × Byte × Byte) (member : t ∈ twoPlaces) :
    t = (0#8, 1#8, 0#8) ∨ t = (0#8, 2#8, 0#8) := by
  rcases List.mem_cons.mp member with first | second
  · exact Or.inl first
  · exact Or.inr (List.mem_singleton.mp second)

theorem two_places_real (t : Byte × Byte × Byte) (member : t ∈ twoPlaces) : t.2.1.toNat < 32 ∧ t.2.2.toNat < 8 := by
  rcases two_places_cases t member with rfl | rfl <;> decide

end GargOS
