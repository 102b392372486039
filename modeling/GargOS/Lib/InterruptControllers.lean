import GargOS.Lib.ByteMemory

/-!
The two interrupt controllers of a PC, chained through one line of the master:
how they are initialised, which request they pass on with which vector, and
what an end of interrupt clears. Priorities are the fixed ones; the commands
that rotate them are left out.
-/

namespace InterruptControllers
open ByteMemory

/-- The word of the initialisation a controller waits for. -/
inductive Phase
  | ready
  | icw2
  | icw3
  | icw4
  deriving DecidableEq

structure Controller where
  phase : Phase
  single : Bool
  fourth : Bool
  vectorBase : Byte
  cascade : Byte
  mode : Byte
  mask : Byte
  inService : Byte
  deriving DecidableEq

/-- The first port: an initialisation, or an end of interrupt for the line of
highest priority in service. -/
def Controller.command (c : Controller) (b : Byte) : Controller :=
  if b.getLsbD 4 then
    { c with phase := .icw2, single := b.getLsbD 1, fourth := b.getLsbD 0, mode := 0#8, mask := 0#8, inService := 0#8 }
  else if b &&& 0xF8#8 = 0x20#8 then { c with inService := c.inService &&& (c.inService - 1#8) }
  else c

/-- The second port: the words of an initialisation, then masks. -/
def Controller.data (c : Controller) (b : Byte) : Controller :=
  match c.phase with
  | .ready => { c with mask := b }
  | .icw2 => { c with
      vectorBase := b &&& 0xF8#8
      phase := if c.single then (if c.fourth then .icw4 else .ready) else .icw3 }
  | .icw3 => { c with cascade := b, phase := if c.fourth then .icw4 else .ready }
  | .icw4 => { c with mode := b, phase := .ready }

/-- A request is passed on while no line of its own or a higher priority is in service. -/
def Controller.accepts (c : Controller) (line : Fin 8) : Bool :=
  c.phase = .ready ∧ c.mode.getLsbD 0 = true ∧ c.mask.getLsbD line = false ∧
    ∀ i ≤ line, c.inService.getLsbD i = false

def Controller.acknowledge (c : Controller) (line : Fin 8) : Controller :=
  if c.mode.getLsbD 1 then c else { c with inService := c.inService ||| 1#8 <<< line.val }

def Controller.vector (c : Controller) (line : Fin 8) : Byte := c.vectorBase + BitVec.ofNat 8 line.val

structure Controllers where
  master : Controller
  slave : Controller
  deriving DecidableEq

def Controllers.out (c : Controllers) (sent : BitVec 16 × Byte) : Controllers :=
  if sent.1 = 0x20#16 then { c with master := c.master.command sent.2 }
  else if sent.1 = 0x21#16 then { c with master := c.master.data sent.2 }
  else if sent.1 = 0xA0#16 then { c with slave := c.slave.command sent.2 }
  else if sent.1 = 0xA1#16 then { c with slave := c.slave.data sent.2 }
  else c

def Controllers.outs (c : Controllers) (sent : List (BitVec 16 × Byte)) : Controllers :=
  sent.foldl Controllers.out c

/-- A device of the PC, by the controller its line goes to. -/
inductive Line
  | master (line : Fin 8)
  | slave (line : Fin 8)
  deriving DecidableEq

def Line.number : Line → Nat
  | .master line => line
  | .slave line => 8 + line

/-- The vector the processor is given. A device of the slave needs the line by
which the slave knows its master, and a line with a slave behind it has no device. -/
def Controllers.raise (c : Controllers) : Line → Option (Byte × Controllers)
  | .master line =>
      if c.master.accepts line ∧ c.master.cascade.getLsbD line = false then
        some (c.master.vector line, { c with master := c.master.acknowledge line })
      else none
  | .slave line =>
      let chained := Fin.ofNat 8 c.slave.cascade.toNat
      if c.slave.accepts line ∧ c.master.accepts chained ∧ c.master.cascade.getLsbD chained = true then
        some (c.slave.vector line, ⟨c.master.acknowledge chained, c.slave.acknowledge line⟩)
      else none

/-- The ends of interrupt that a request of a line takes. -/
def Line.ends : Line → List (BitVec 16 × Byte)
  | .master _ => [(0x20#16, 0x20#8)]
  | .slave _ => [(0xA0#16, 0x20#8), (0x20#16, 0x20#8)]

/-- Nothing is in service, and ends of interrupt have to be sent. -/
structure Controller.Idle (c : Controller) : Prop where
  manual : c.mode.getLsbD 1 = false
  inService : c.inService = 0#8

theorem lowest_cleared : ∀ (b : Byte) (line : Fin 8), (∀ i ≤ line, b.getLsbD i = false) →
    (b ||| 1#8 <<< line.val) &&& ((b ||| 1#8 <<< line.val) - 1#8) = b := by
  decide +kernel

theorem end_in_service (c : Controller) :
    c.command 0x20#8 = { c with inService := c.inService &&& (c.inService - 1#8) } := by
  have notInitial : ¬ (0x20#8 : Byte).getLsbD 4 = true := by decide
  have unspecific : (0x20#8 : Byte) &&& 0xF8#8 = 0x20#8 := by decide
  rw [Controller.command, if_neg notInitial, if_pos unspecific]

theorem idle_ended (c : Controller) (idle : c.Idle) : c.command 0x20#8 = c := by
  have nothing : c.inService &&& (c.inService - 1#8) = c.inService := by
    rw [idle.inService]
    decide
  rw [end_in_service, nothing]

theorem acknowledged_ended (c : Controller) (line : Fin 8) (manual : c.mode.getLsbD 1 = false)
    (accepted : c.accepts line = true) : (c.acknowledge line).command 0x20#8 = c := by
  simp only [Controller.accepts, decide_eq_true_eq] at accepted
  have cleared := lowest_cleared c.inService line accepted.2.2.2
  have automatic : ¬ c.mode.getLsbD 1 = true := by
    rw [manual]
    decide
  rw [end_in_service, Controller.acknowledge, if_neg automatic, cleared]

theorem raise_ended (c after : Controllers) (line : Line) (vector : Byte)
    (manual : c.master.mode.getLsbD 1 = false ∧ c.slave.mode.getLsbD 1 = false)
    (raised : c.raise line = some (vector, after)) : after.outs line.ends = c := by
  cases line with
  | master line =>
      obtain ⟨accepted, same⟩ := Option.ite_none_right_eq_some.mp raised
      obtain ⟨_, rfl⟩ := Prod.mk.inj (Option.some.inj same)
      show (⟨(c.master.acknowledge line).command 0x20#8, c.slave⟩ : Controllers) = c
      rw [acknowledged_ended c.master line manual.1 accepted.1]
  | slave line =>
      obtain ⟨accepted, same⟩ := Option.ite_none_right_eq_some.mp raised
      obtain ⟨_, rfl⟩ := Prod.mk.inj (Option.some.inj same)
      show (⟨(c.master.acknowledge _).command 0x20#8, (c.slave.acknowledge line).command 0x20#8⟩ :
        Controllers) = c
      rw [acknowledged_ended c.master _ manual.1 accepted.2.1, acknowledged_ended c.slave line manual.2 accepted.1]

/-- An end for the slave as well does nothing where only the master has served. -/
theorem raise_ended_twice (c after : Controllers) (line : Fin 8) (vector : Byte)
    (manual : c.master.mode.getLsbD 1 = false) (idle : c.slave.Idle)
    (raised : c.raise (.master line) = some (vector, after)) :
    after.outs (Line.slave line).ends = c := by
  obtain ⟨accepted, same⟩ := Option.ite_none_right_eq_some.mp raised
  obtain ⟨_, rfl⟩ := Prod.mk.inj (Option.some.inj same)
  show (⟨(c.master.acknowledge line).command 0x20#8, c.slave.command 0x20#8⟩ : Controllers) = c
  rw [acknowledged_ended c.master line manual accepted.1, idle_ended c.slave idle]

end InterruptControllers
