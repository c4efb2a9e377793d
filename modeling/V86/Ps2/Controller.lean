import V86.Lib.Runs
import Mathlib.Algebra.Order.Ring.Unbundled.Rat

/-!
# The keyboard controller

`src/ps2.js`: the 8042 with a keyboard and a mouse, each with a queue of bytes. Of the bytes in the
two queues the controller announces one at a time, in the output buffer; the status register tells
that it is there and which of the two queues it is in.
-/

namespace V86.Ps2

abbrev Byte := BitVec 8

/-! ## Queues -/

/-- `ByteQueue` of 1024 bytes. -/
structure ByteQueue where
  data : Nat → Byte
  start : Nat
  stop : Nat
  length : Nat

namespace ByteQueue

def size : Nat := 1024

/-- `new ByteQueue`. -/
def empty : ByteQueue := ⟨fun _ => 0, 0, 0, 0⟩

/-- `push`: in a full queue a byte is overwritten, intentionally. -/
def push (q : ByteQueue) (item : Byte) : ByteQueue where
  length := if q.length = size then q.length else q.length + 1
  data := Function.update q.data q.stop item
  start := q.start
  stop := (q.stop + 1) % size

/-- `peek`: of an empty queue it is -1, here as a byte. -/
def peek (q : ByteQueue) : Byte := if q.length = 0 then 0xFF else q.data q.start

/-- The queue after `shift`, which returns what `peek` does. -/
def shift (q : ByteQueue) : ByteQueue :=
  if q.length = 0 then q else { q with start := (q.start + 1) % size, length := q.length - 1 }

/-- `clear`. -/
def clear (q : ByteQueue) : ByteQueue := { q with start := 0, stop := 0, length := 0 }

end ByteQueue

/-! ## The controller -/

/-- A number as a 32-bit integer, `x | 0`. -/
def toInt32 (x : ℚ) : Int := (BitVec.ofInt 32 (x.num.tdiv x.den)).toInt

/-- `PS2`, with the packets that the mouse has sent and the bytes that were read with AUX set, since
the controller was reset or restored. -/
structure PS2 where
  enableMouseStream : Bool
  useMouse : Bool
  haveMouse : Bool
  mouseDeltaX : ℚ
  mouseDeltaY : ℚ
  mouseClicks : Byte
  haveKeyboard : Bool
  enableKeyboardStream : Bool
  nextIsMouseCommand : Bool
  nextReadSample : Bool
  nextReadLed : Bool
  nextHandleScanCodeSet : Bool
  nextReadRate : Bool
  nextReadResolution : Bool
  kbdBuffer : ByteQueue
  lastPort60Byte : Byte
  sampleRate : Byte
  mouseDetectState : Int
  mouseId : Byte
  mouseResetWorkaround : Bool
  wheelMovement : ℚ
  resolution : Byte
  scaling2 : Bool
  mouseBuffer : ByteQueue
  nextByteIsReady : Bool
  nextByteIsAux : Bool
  commandRegister : Byte
  controllerOutputPort : Byte
  readOutputRegister : Bool
  readCommandRegister : Bool
  readControllerOutputPort : Bool
  /-- The lines 1 and 12. -/
  kbdLine : Bool
  mouseLine : Bool
  packets : List (List Byte)
  mouseRead : List Byte

namespace PS2

/-- `reset`. -/
def init : PS2 where
  enableMouseStream := false
  useMouse := false
  haveMouse := true
  mouseDeltaX := 0
  mouseDeltaY := 0
  mouseClicks := 0
  haveKeyboard := true
  enableKeyboardStream := false
  nextIsMouseCommand := false
  nextReadSample := false
  nextReadLed := false
  nextHandleScanCodeSet := false
  nextReadRate := false
  nextReadResolution := false
  kbdBuffer := .empty
  lastPort60Byte := 0
  sampleRate := 100
  mouseDetectState := 0
  mouseId := 0
  mouseResetWorkaround := false
  wheelMovement := 0
  resolution := 4
  scaling2 := false
  mouseBuffer := .empty
  nextByteIsReady := false
  nextByteIsAux := false
  commandRegister := 1 ||| 4
  controllerOutputPort := 0
  readOutputRegister := false
  readCommandRegister := false
  readControllerOutputPort := false
  kbdLine := false
  mouseLine := false
  packets := []
  mouseRead := []

/-- `reset` of a controller; the interrupt lines are not its own. -/
def reset (s : PS2) : PS2 := { init with kbdLine := s.kbdLine, mouseLine := s.mouseLine }

/-- `set_state` with the state that `get_state` saved of a controller: what `get_state` leaves out
is kept, but for the queues and what they announce. -/
def setState (s saved : PS2) : PS2 :=
  { saved with
    wheelMovement := s.wheelMovement
    kbdLine := s.kbdLine
    mouseLine := s.mouseLine
    nextByteIsReady := false
    nextByteIsAux := false
    kbdBuffer := s.kbdBuffer.clear
    mouseBuffer := s.mouseBuffer.clear
    packets := []
    mouseRead := [] }

/-- `mouse_stream_active`. -/
def mouseStreamActive (s : PS2) : Bool := s.enableMouseStream && s.commandRegister &&& 0x20 = 0

/-! ## Announcing bytes -/

/-- `mouse_irq`. -/
def mouseIrq (s : PS2) : PS2 :=
  let s := { s with nextByteIsReady := true, nextByteIsAux := true }
  if s.commandRegister &&& 2 ≠ 0 then { s with mouseLine := true } else s

/-- `kbd_irq`. -/
def kbdIrq (s : PS2) : PS2 :=
  let s := { s with nextByteIsReady := true, nextByteIsAux := false }
  if s.commandRegister &&& 1 ≠ 0 then { s with kbdLine := true } else s

/-- `raise_irq`. -/
def raiseIrq (s : PS2) : PS2 :=
  if s.nextByteIsReady then s
  else if s.kbdBuffer.length ≠ 0 then s.kbdIrq
  else if s.mouseBuffer.length ≠ 0 then s.mouseIrq
  else s

/-! ## Events of the host -/

/-- `kbd_send_code`. -/
def kbdSendCode (s : PS2) (code : Byte) : PS2 :=
  if s.enableKeyboardStream then { s with kbdBuffer := s.kbdBuffer.push code }.raiseIrq else s

/-- The bytes of a mouse packet. -/
def packet (s : PS2) (dx dy : Int) : List Byte :=
  let infoByte : Byte :=
    (if dy < 0 then 0x20 else 0) ||| (if dx < 0 then 0x10 else 0) ||| 0x08 ||| s.mouseClicks
  let wheel := BitVec.ofInt 8 (toInt32 s.wheelMovement)
  [infoByte, BitVec.ofInt 8 dx, BitVec.ofInt 8 dy] ++
    if s.mouseId = 4 then [wheel &&& 0x0F] else if s.mouseId = 3 then [wheel] else []

/-- `send_mouse_packet`. -/
def sendMousePacket (s : PS2) (dx dy : Int) : PS2 :=
  { s with
    mouseBuffer := (s.packet dx dy).foldl ByteQueue.push s.mouseBuffer
    wheelMovement := if s.mouseId = 4 ∨ s.mouseId = 3 then 0 else s.wheelMovement
    packets := s.packets ++ [s.packet dx dy] }.raiseIrq

/-- `mouse_send_delta`. -/
def mouseSendDelta (s : PS2) (deltaX deltaY : ℚ) : PS2 :=
  if !s.haveMouse || !s.useMouse then s
  else
    let s := { s with
      mouseDeltaX := s.mouseDeltaX + deltaX
      mouseDeltaY := s.mouseDeltaY + deltaY }
    let changeX := toInt32 s.mouseDeltaX
    let changeY := toInt32 s.mouseDeltaY
    if s.mouseStreamActive && (changeX ≠ 0 || changeY ≠ 0) then
      { s with
        mouseDeltaX := s.mouseDeltaX - changeX
        mouseDeltaY := s.mouseDeltaY - changeY }.sendMousePacket changeX changeY
    else s

/-- The buttons that are down, `mouse_clicks`. -/
def clicks (left middle right : Bool) : Byte :=
  (if left then 1 else 0) ||| (if right then 2 else 0) ||| if middle then 4 else 0

/-- `mouse_send_click`. -/
def mouseSendClick (s : PS2) (left middle right : Bool) : PS2 :=
  if !s.haveMouse || !s.useMouse then s
  else
    let s := { s with mouseClicks := clicks left middle right }
    if s.mouseStreamActive then s.sendMousePacket 0 0 else s

/-- The listener of `mouse-wheel`. -/
def mouseWheel (s : PS2) (y x : ℚ) : PS2 :=
  if !s.haveMouse || !s.useMouse || !s.mouseStreamActive then s
  else
    { s with
      wheelMovement := min 7 (max (-8) (s.wheelMovement - y - x * 2)) }.sendMousePacket 0 0

/-! ## Reads -/

/-- `port60_read`. -/
def port60Read (s : PS2) : Byte × PS2 :=
  let s := { s with nextByteIsReady := false }
  if s.kbdBuffer.length = 0 ∧ s.mouseBuffer.length = 0 then (s.lastPort60Byte, s)
  else
    let s :=
      if s.nextByteIsAux then
        { s with
          mouseLine := false
          lastPort60Byte := s.mouseBuffer.peek
          mouseBuffer := s.mouseBuffer.shift
          mouseRead := s.mouseRead ++ [s.mouseBuffer.peek] }
      else
        { s with
          kbdLine := false
          lastPort60Byte := s.kbdBuffer.peek
          kbdBuffer := s.kbdBuffer.shift }
    (s.lastPort60Byte, if s.kbdBuffer.length ≠ 0 ∨ s.mouseBuffer.length ≠ 0 then s.raiseIrq else s)

/-- `port64_read`. -/
def port64Read (s : PS2) : Byte :=
  0x10 ||| (if s.nextByteIsReady then 0x1 else 0) ||| if s.nextByteIsAux then 0x20 else 0

/-! ## Writes -/

/-- The answer to a command, in place of all that the keyboard has to say. -/
def answerKbd (s : PS2) (bytes : List Byte) : PS2 :=
  { s with
    mouseBuffer := s.mouseBuffer.clear
    kbdBuffer := bytes.foldl ByteQueue.push s.kbdBuffer.clear }

/-- The mouse's sample rate, and how the driver selects the kind of mouse with it. -/
def setSampleRate (s : PS2) (writeByte : Byte) : PS2 :=
  let s := { s with sampleRate := writeByte }
  let s :=
    if s.mouseDetectState = -1 then
      if writeByte = 60 then { s with mouseResetWorkaround := true, mouseDetectState := 0 }
      else
        { s with
          mouseResetWorkaround := false
          mouseDetectState := if writeByte = 200 then 1 else 0 }
    else if s.mouseDetectState = 0 then
      if writeByte = 200 then { s with mouseDetectState := 1 } else s
    else if s.mouseDetectState = 1 then
      { s with
        mouseDetectState := if writeByte = 100 then 2 else if writeByte = 200 then 3 else 0 }
    else if s.mouseDetectState = 2 then
      { s with mouseId := if writeByte = 80 then 0x03 else s.mouseId, mouseDetectState := -1 }
    else if s.mouseDetectState = 3 then
      { s with mouseId := if writeByte = 80 then 0x04 else s.mouseId, mouseDetectState := -1 }
    else s
  if s.sampleRate = 0 then { s with sampleRate := 100 } else s

/-- A command to the mouse, after it was acknowledged. -/
def mouseCommand (s : PS2) (writeByte : Byte) : PS2 :=
  if writeByte = 0xE6 then { s with scaling2 := false }
  else if writeByte = 0xE7 then { s with scaling2 := true }
  else if writeByte = 0xE8 then { s with nextReadResolution := true }
  else if writeByte = 0xE9 ∨ writeByte = 0xEB then s.sendMousePacket 0 0
  else if writeByte = 0xF2 then
    { s with
      mouseBuffer := s.mouseBuffer.push s.mouseId
      mouseClicks := 0
      mouseDeltaX := 0
      mouseDeltaY := 0 }.raiseIrq
  else if writeByte = 0xF3 then { s with nextReadSample := true }
  else if writeByte = 0xF4 then
    { s with
      enableMouseStream := true
      useMouse := true
      mouseClicks := 0
      mouseDeltaX := 0
      mouseDeltaY := 0 }
  else if writeByte = 0xF5 then { s with enableMouseStream := false }
  else if writeByte = 0xF6 then
    { s with enableMouseStream := false, sampleRate := 100, scaling2 := false, resolution := 4 }
  else if writeByte = 0xFF then
    { s with
      mouseBuffer := (s.mouseBuffer.push 0xAA).push 0
      useMouse := true
      enableMouseStream := false
      sampleRate := 100
      scaling2 := false
      resolution := 4
      mouseId := if s.mouseResetWorkaround then s.mouseId else 0
      mouseClicks := 0
      mouseDeltaX := 0
      mouseDeltaY := 0 }
  else s

/-- A command to the keyboard, after it was acknowledged. -/
def kbdCommand (s : PS2) (writeByte : Byte) : PS2 :=
  if writeByte = 0xED then { s with nextReadLed := true }
  else if writeByte = 0xF0 then { s with nextHandleScanCodeSet := true }
  else if writeByte = 0xF2 then { s with kbdBuffer := (s.kbdBuffer.push 0xAB).push 0x83 }
  else if writeByte = 0xF3 then { s with nextReadRate := true }
  else if writeByte = 0xF4 then { s with enableKeyboardStream := true }
  else if writeByte = 0xF5 then { s with enableKeyboardStream := false }
  else if writeByte = 0xFF then
    { s with kbdBuffer := ((s.kbdBuffer.clear.push 0xFA).push 0xAA).push 0 }
  else s

/-- The mouse's queue with a byte in place of what was in it. -/
def answerMouse (s : PS2) (byte : Byte) : PS2 :=
  { s with mouseBuffer := s.mouseBuffer.clear.push byte }

/-- `port60_write`. -/
def port60Write (s : PS2) (writeByte : Byte) : PS2 :=
  if s.readCommandRegister then
    { s with commandRegister := writeByte, readCommandRegister := false }
  else if s.readOutputRegister then
    ({ s with readOutputRegister := false }.answerMouse writeByte).mouseIrq
  else if s.nextReadSample then
    (({ s with nextReadSample := false }.answerMouse 0xFA).setSampleRate writeByte).mouseIrq
  else if s.nextReadResolution then
    { { s with nextReadResolution := false }.answerMouse 0xFA with
      resolution := if 3 < writeByte.toNat then 4 else 1#8 <<< writeByte }.mouseIrq
  else if s.nextReadLed then
    { s with nextReadLed := false, kbdBuffer := s.kbdBuffer.push 0xFA }.kbdIrq
  else if s.nextHandleScanCodeSet then
    let s := { s with nextHandleScanCodeSet := false, kbdBuffer := s.kbdBuffer.push 0xFA }.kbdIrq
    if writeByte ≠ 0 then s else { s with kbdBuffer := s.kbdBuffer.push 1 }
  else if s.nextReadRate then
    { s with nextReadRate := false, kbdBuffer := s.kbdBuffer.push 0xFA }.kbdIrq
  else if s.nextIsMouseCommand then
    let s := { s with nextIsMouseCommand := false }
    if !s.haveMouse then s
    else
      (({ s with kbdBuffer := s.kbdBuffer.clear }.answerMouse 0xFA).mouseCommand writeByte).mouseIrq
  else if s.readControllerOutputPort then
    { s with readControllerOutputPort := false, controllerOutputPort := writeByte }
  else ((s.answerKbd [0xFA]).kbdCommand writeByte).kbdIrq

/-- `port64_write`. A reboot is a step of the machine. -/
def port64Write (s : PS2) (writeByte : Byte) : PS2 :=
  if writeByte = 0x20 then (s.answerKbd [s.commandRegister]).kbdIrq
  else if writeByte = 0x60 then { s with readCommandRegister := true }
  else if writeByte = 0xD0 then (s.answerKbd [s.controllerOutputPort]).kbdIrq
  else if writeByte = 0xD1 then { s with readControllerOutputPort := true }
  else if writeByte = 0xD3 then { s with readOutputRegister := true }
  else if writeByte = 0xD4 then { s with nextIsMouseCommand := true }
  else if writeByte = 0xA7 then { s with commandRegister := s.commandRegister ||| 0x20 }
  else if writeByte = 0xA8 then { s with commandRegister := s.commandRegister &&& ~~~0x20 }
  else if writeByte = 0xA9 ∨ writeByte = 0xAB then (s.answerKbd [0]).kbdIrq
  else if writeByte = 0xAA then (s.answerKbd [0x55]).kbdIrq
  else if writeByte = 0xAD then { s with commandRegister := s.commandRegister ||| 0x10 }
  else if writeByte = 0xAE then { s with commandRegister := s.commandRegister &&& ~~~0x10 }
  else s

end PS2

/-! ## Steps -/

/-- What happens to the controller. -/
inductive Event where
  | key (code : Byte)
  | delta (x y : ℚ)
  | click (left middle right : Bool)
  | wheel (y x : ℚ)
  | read60
  | write60 (byte : Byte)
  | write64 (byte : Byte)
  | reset
  | restore (saved : PS2)

/-- The controller after an event. -/
def step (s : PS2) : Event → PS2
  | .key code => s.kbdSendCode code
  | .delta x y => s.mouseSendDelta x y
  | .click left middle right => s.mouseSendClick left middle right
  | .wheel y x => s.mouseWheel y x
  | .read60 => s.port60Read.2
  | .write60 byte => s.port60Write byte
  | .write64 byte => s.port64Write byte
  | .reset => s.reset
  | .restore saved => s.setState saved

/-- The controller after some events. -/
def run (s : PS2) (events : List Event) : PS2 := events.foldl step s

end V86.Ps2
