/-
The serial port of `src/drivers/uart.c`.

A byte written to the data port goes to the transmit queue of the controller if
there is room and is lost otherwise; the controller sends the queue byte by byte,
in its own time.  `uart_write` holds a lock for a whole string and waits before
each byte until the queue is empty.
-/

import Osdev64.Lib.LockedText

namespace Osdev64

open Bytes SpinLock

/-- The registers that can be written, the transmit queue, and every byte that was sent. -/
structure Uart where
  divisorLow : Byte
  divisorHigh : Byte
  interrupts : Byte
  fifoControl : Byte
  lineControl : Byte
  modemControl : Byte
  /-- The bits of the line status register that do not depend on the queue. -/
  status : Byte
  queue : List Byte
  sent : List Byte

namespace Uart

/-- With this bit of the line control register the first two ports are the divisor. -/
def divisorLatch (uart : Uart) : Bool := uart.lineControl.getLsbD 7

/-- `outb(COM1 + port, value)`; the queue has `depth` places. -/
def outb (depth port : Nat) (value : Byte) (uart : Uart) : Uart :=
  match port with
  | 0 =>
    if uart.divisorLatch then { uart with divisorLow := value }
    else if uart.queue.length < depth then { uart with queue := uart.queue ++ [value] }
    else uart
  | 1 =>
    if uart.divisorLatch then { uart with divisorHigh := value }
    else { uart with interrupts := value }
  | 2 =>
    { uart with
      fifoControl := value
      queue := if value.getLsbD 2 then [] else uart.queue }
  | 3 => { uart with lineControl := value }
  | 4 => { uart with modemControl := value }
  | _ => uart

/-- `inb(COM1 + 5)`: bit 5 says that the queue is empty. -/
def lineStatus (uart : Uart) : Byte :=
  if uart.queue = [] then uart.status ||| 0x20 else uart.status &&& 0xDF

/-- The controller sends the first byte of the queue, or another bit of its status changes. -/
inductive Moves (uart : Uart) : Uart → Prop where
  | send (c : Byte) (queue : List Byte) (first : uart.queue = c :: queue) :
      Moves uart { uart with queue := queue, sent := uart.sent ++ [c] }
  | report (status : Byte) : Moves uart { uart with status := status }

end Uart

/-- `uart_putc`: the test of its loop, and the byte it writes then. -/
def uartPutc (depth : Nat) : Sink Uart where
  ready := fun uart => uart.lineStatus &&& 0x20 ≠ 0
  put := fun c uart => uart.outb depth 0 c
  moves := Uart.Moves

/-- `uart_write`, while other code may write anywhere in memory. -/
def uartWrite (depth : Nat) : Code (Printing Uart) TextLocals TextCall Unit :=
  (uartPutc depth).code fun _ _ => True

variable {depth : Nat} {uart : Uart}

theorem uartPutc_ready_iff : (uartPutc depth).ready uart ↔ uart.queue = [] := by
  change uart.lineStatus &&& 0x20 ≠ 0 ↔ _
  unfold Uart.lineStatus
  generalize uart.status = status
  split_ifs with empty
  · simp only [empty, iff_true]
    revert status
    decide
  · simp only [empty, iff_false, not_not]
    revert status
    decide

/-- What the controller was given behind `before`, with the data port open. -/
def Uart.Given (before : List Byte) (bytes : List Byte) (uart : Uart) : Prop :=
  uart.divisorLatch = false ∧ uart.sent ++ uart.queue = before ++ bytes

theorem uartPutc_feeds (before : List Byte) (room : 0 < depth) :
    (uartPutc depth).Feeds (fun _ => True) (Uart.Given before) where
  put := by
    rintro bytes uart c ⟨latch, given⟩ ready _
    rw [uartPutc_ready_iff] at ready
    have queued : (uartPutc depth).put c uart = { uart with queue := [c] } := by
      change uart.outb depth 0 c = _
      simp only [Uart.outb, latch, ready, List.length_nil, if_pos room, List.nil_append]
      rfl
    rw [queued]
    refine ⟨latch, ?_⟩
    rw [ready, List.append_nil] at given
    rw [given, List.append_assoc]
  moves := by
    rintro bytes uart uart' ⟨latch, given⟩ moves
    cases moves with
    | send c queue first =>
      refine ⟨latch, ?_⟩
      rw [List.append_assoc, List.singleton_append, ← first, given]
    | report status => exact ⟨latch, given⟩
  steady := by
    intro uart uart' ready moves
    rw [uartPutc_ready_iff] at ready ⊢
    cases moves with
    | send c queue first =>
      rw [ready] at first
      cases first
    | report status => exact ready

theorem uartPutc_settles (uart : Uart) :
    ∃ uart', Relation.ReflTransGen (uartPutc depth).moves uart uart' ∧ (uartPutc depth).ready uart' := by
  generalize queued : uart.queue = queue
  induction queue generalizing uart with
  | nil => exact ⟨uart, .refl, uartPutc_ready_iff.mpr queued⟩
  | cons c queue ih =>
    obtain ⟨uart', moves, ready⟩ := ih { uart with queue := queue, sent := uart.sent ++ [c] } rfl
    exact ⟨uart', .head (Uart.Moves.send c queue queued) moves, ready⟩

/-! ### A call inside a call -/

theorem Uart.Moves.kept {uart' : Uart} (moves : Uart.Moves uart uart') :
    uart'.sent ++ uart'.queue = uart.sent ++ uart.queue := by
  cases moves with
  | send c queue first => rw [List.append_assoc, List.singleton_append, first]
  | report status => rfl

/-- A trap that prints while its processor is inside `uart_write` waits for ever: the lock is never
free again, no call on any processor returns, and not one more byte is printed. -/
theorem uartWrite_inside_itself {ι : Type} [DecidableEq ι] (depth : Nat) (shared : Printing Uart)
    (log : List (Event ι TextCall Unit))
    (machine : Machine ι (Printing Uart) TextLocals TextCall)
    (before : Runs.Logged (Step (uartWrite depth)) (Machine.idle shared) log machine)
    (cpu : ι) (call : TextCall) (locals : TextLocals) (above below : List (Place TextCall TextLocals))
    (covered : above ≠ []) (stack : machine.stack cpu = above ++ .inside call locals :: below)
    (log' : List (Event ι TextCall Unit)) (machine' : Machine ι (Printing Uart) TextLocals TextCall)
    (run : Runs.Logged (Step (uartWrite depth)) machine log' machine') :
    machine'.flag = true ∧ (∃ more, machine'.stack cpu = more ++ machine.stack cpu) ∧
      returns log' = [] ∧
      machine'.shared.device.sent ++ machine'.shared.device.queue =
        machine.shared.device.sent ++ machine.shared.device.queue := by
  have stable : ∀ shared' shared'' : Printing Uart,
      shared'.device.sent ++ shared'.device.queue =
        machine.shared.device.sent ++ machine.shared.device.queue →
      (uartWrite depth).ambient shared' shared'' →
      shared''.device.sent ++ shared''.device.queue =
        machine.shared.device.sent ++ machine.shared.device.queue := by
    intro shared' shared'' same moves
    cases moves with
    | device device' moved => exact (Uart.Moves.kept moved).trans same
    | memory memory' written => exact same
  exact deadlock stable rfl before covered stack run

/-- A text of one byte, and a controller that was not programmed. -/
def oneByte : Memory := fun address => if address = 0 then 0x41 else 0

def oneByteCall : TextCall := ⟨0, [0x41]⟩

def blankUart : Uart := ⟨0, 0, 0, 0, 0, 0, 0, [], []⟩

/-- A second call on top of the first. -/
theorem uartWrite_inside_itself_oneByte :
    ∃ machine : Machine Unit (Printing Uart) TextLocals TextCall,
      Runs.Logged (Step (uartWrite 1)) (Machine.idle ⟨blankUart, oneByte⟩)
        [.called () oneByteCall, .called () oneByteCall] machine ∧
      machine.stack () = [.spinning oneByteCall, .inside oneByteCall ⟨0, .test⟩] ∧
      ∀ log' machine', Runs.Logged (Step (uartWrite 1)) machine log' machine' → returns log' = [] := by
  let start : Machine Unit (Printing Uart) TextLocals TextCall := Machine.idle ⟨blankUart, oneByte⟩
  have none' : Runs.Logged (Step (uartWrite 1)) start [] start := .start
  have called := Runs.Logged.step [] start _ _ none' (.called () oneByteCall trivial)
  have acquired := called.silent (.acquired () oneByteCall [] rfl rfl trivial)
  have again := Runs.Logged.step _ _ _ _ acquired (.called () oneByteCall trivial)
  have stuck := uartWrite_inside_itself 1 ⟨blankUart, oneByte⟩ _ _ again () oneByteCall
    ⟨0, .test⟩ [.spinning oneByteCall] [] (List.cons_ne_nil _ _) rfl
  exact ⟨_, again, rfl, fun log' machine' run => (stuck log' machine' run).2.2.1⟩

/-! ### The buffer of `kernel_log` -/

/-- `buf`, which every `kernel_log` clears and fills before it calls `uart_write`, and which no lock
protects; the rest of memory stays as it is. -/
def logBuffer (buf : Nat) (message : List Byte) (memory : Memory) : Memory := fun address =>
  if buf ≤ address ∧ address < buf + 256 then message.getD (address - buf) 0 else memory address

/-- Another processor has cleared the buffer, or filled it. -/
def LogWrites (buf : Nat) (memory memory' : Memory) : Prop :=
  ∃ message, memory' = logBuffer buf message memory

/-- `kernel_log` from its call of `uart_write` on. -/
def kernelLogWrite (depth buf : Nat) : Code (Printing Uart) TextLocals TextCall Unit :=
  (uartPutc depth).code (LogWrites buf)

theorem textAt_logBuffer {buf : Nat} {message : List Byte} (memory : Memory) (short : message.length < 256)
    (nonzero : ∀ c ∈ message, c ≠ 0) : TextAt (logBuffer buf message memory) buf message := by
  refine textAt_of_getD (fun k inside => ?_) nonzero
  unfold logBuffer
  rw [if_pos (by omega), Nat.add_sub_cancel_left]

/-- The second processor clears the buffer when the first has printed `k` bytes of its message: both
calls return, and the rest of the message is lost. -/
theorem kernelLog_torn (depth : Nat) (room : 0 < depth) (uart : Uart) (latch : uart.divisorLatch = false)
    (memory : Memory) (buf : Nat) (first second : List Byte)
    (short : first.length < 256) (short' : second.length < 256)
    (nonzero : ∀ c ∈ first, c ≠ 0) (nonzero' : ∀ c ∈ second, c ≠ 0) (k : Nat) (inside : k ≤ first.length) :
    ∃ machine : Machine Bool (Printing Uart) TextLocals TextCall,
      Runs.Logged (Step (kernelLogWrite depth buf)) (Machine.idle ⟨uart, logBuffer buf first memory⟩)
        [.called false ⟨buf, first⟩, .returned false ⟨buf, first⟩ (),
          .called true ⟨buf, second⟩, .returned true ⟨buf, second⟩ ()] machine ∧
      machine.shared.device.sent ++ machine.shared.device.queue =
        uart.sent ++ uart.queue ++ (first.take k ++ second) := by
  have feeds := uartPutc_feeds (uart.sent ++ uart.queue) room
  have settles : ∀ bytes device, Uart.Given (uart.sent ++ uart.queue) bytes device →
      ∃ device', Relation.ReflTransGen (uartPutc depth).moves device device' ∧
        (uartPutc depth).ready device' :=
    fun _ device _ => uartPutc_settles device
  have initially : Uart.Given (uart.sent ++ uart.queue) [] uart := ⟨latch, (List.append_nil _).symm⟩
  have found : TextAt (logBuffer buf first memory) buf (first.take k ++ first.drop k) := by
    rw [List.take_append_drop]
    exact textAt_logBuffer memory short nonzero
  have taken : (first.take k).length = k := List.length_take_of_le inside
  have zero : logBuffer buf [] (logBuffer buf first memory) (buf + (first.take k).length) = 0 := by
    rw [taken, logBuffer, if_pos (by omega)]
    rfl
  have second' : TextAt (logBuffer buf second (logBuffer buf [] (logBuffer buf first memory))) buf second :=
    textAt_logBuffer _ short' nonzero'
  generalize logBuffer buf first memory = filled at *
  let start : Machine Bool (Printing Uart) TextLocals TextCall := Machine.idle ⟨uart, filled⟩
  have none' : Runs.Logged (Step (kernelLogWrite depth buf)) start [] start := .start
  obtain ⟨machine, ran, given⟩ := Sink.run_cut feeds settles ⟨buf, first⟩ ⟨buf, second⟩ none' rfl initially
    found (fun _ _ => trivial) ⟨[], rfl⟩ zero ⟨second, rfl⟩ second'
    (fun _ _ => trivial) false true
  exact ⟨machine, ran, given.2⟩

/-- "AB" is cut after the first letter by "C". -/
theorem kernelLog_torn_after_one :
    ∃ machine : Machine Bool (Printing Uart) TextLocals TextCall,
      Runs.Logged (Step (kernelLogWrite 1 0x1000))
        (Machine.idle ⟨blankUart, logBuffer 0x1000 [0x41, 0x42] fun _ => 0⟩)
        [.called false ⟨0x1000, [0x41, 0x42]⟩, .returned false ⟨0x1000, [0x41, 0x42]⟩ (),
          .called true ⟨0x1000, [0x43]⟩, .returned true ⟨0x1000, [0x43]⟩ ()] machine ∧
      machine.shared.device.sent ++ machine.shared.device.queue = [0x41, 0x43] :=
  kernelLog_torn 1 Nat.one_pos blankUart (by decide) (fun _ => 0) 0x1000
    [0x41, 0x42] [0x43] (by decide) (by decide) (by decide) (by decide) 1 (by decide)

end Osdev64
