import JobRunner.Lib.Argv
import JobRunner.Lib.Lts
import Mathlib.Logic.Function.Basic

/-!
# `win::Child::spawn`

The call that starts a job on Windows, one Win32 call or one drop of a `Handle` a step, so that
calls of several threads can be interleaved. The operating system's handles are named by the
`HandleKind` they are created as, since a call creates at most one of each kind, and a name is not
used again: acting on a closed handle stays visible. An error of Win32 is its display text.
-/

namespace JobRunner.Win

/-! ## Command lines -/

/-- `OsString` on Windows: the units of its `encode_wide`. -/
abbrev OsString := List UInt16

structure JobSpec where
  exe : OsString
  args : List OsString
  deriving DecidableEq

def JobSpec.exeAndArgs (spec : JobSpec) : List OsString := spec.exe :: spec.args

structure WinArgs where
  u16s : List UInt16
  deriving DecidableEq

/-- `WinArgs::new`. -/
def WinArgs.new (items : List OsString) : WinArgs :=
  { u16s := (items.zipIdx.flatMap fun (t, i) => (if i > 0 then [Argv.space] else []) ++ t) ++ [0] }

/-- What Win32 reads at `WinArgs::as_pwstr`: the units before the first NUL. -/
def WinArgs.asPwstr (line : WinArgs) : List UInt16 := line.u16s.takeWhile (· != 0)

/-! ## Handles -/

inductive PipeKind where
  | stdout
  | stderr
  deriving DecidableEq

inductive HandleKind where
  | process
  | thread
  | pipeRx (k : PipeKind)
  | pipeTx (k : PipeKind)
  deriving DecidableEq

/-- A `HANDLE`: `HANDLE::default()`, or what Win32 has created. -/
inductive HANDLE where
  | null
  | created (name : HandleKind)
  deriving DecidableEq

def HANDLE.isInvalid : HANDLE → Bool
  | .null => true
  | .created _ => false

/-- A handle of the operating system, with its `HANDLE_FLAG_INHERIT` and the number of `CloseHandle`
calls on it. -/
structure OsHandle where
  created : Bool
  inherit : Bool
  closes : Nat
  deriving DecidableEq

def OsHandle.isOpen (h : OsHandle) : Bool := h.created && h.closes == 0

/-- The handles a call has created so far. -/
abbrev OsHandles := HandleKind → OsHandle

namespace OsHandles

def none : OsHandles := fun _ => { created := false, inherit := false, closes := 0 }

def create (os : OsHandles) (name : HandleKind) : OsHandles :=
  Function.update os name { created := true, inherit := false, closes := 0 }

/-- `SetHandleInformation(.., HANDLE_FLAG_INHERIT, HANDLE_FLAG_INHERIT)`. -/
def setInherit (os : OsHandles) (name : HandleKind) : OsHandles :=
  Function.update os name { os name with inherit := true }

/-- `CloseHandle`. -/
def closeHandle (os : OsHandles) : HANDLE → OsHandles
  | .null => os
  | .created name => Function.update os name { os name with closes := (os name).closes + 1 }

end OsHandles

/-- The program's `Handle`. -/
structure Handle where
  owned : Bool
  kind : HandleKind
  inner : HANDLE
  deriving DecidableEq

namespace Handle

/-- `Handle::clone`: the copy does not own the `HANDLE`. -/
def clone (h : Handle) : Handle := { h with owned := false }

/-- `Handle::owned`. -/
def ofOwned (inner : HANDLE) (kind : HandleKind) : Handle := { owned := true, kind, inner }

/-- `Handle::close`, which is also its `Drop`. -/
def close (h : Handle) (os : OsHandles) : OsHandles :=
  if h.owned = false then os
  else if h.inner.isInvalid = false then os.closeHandle h.inner
  else os

/-- The `Handle` of a handle that was created. -/
def of (name : HandleKind) : Handle := ofOwned (.created name) name

end Handle

/-! ## The call -/

inductive Error where
  | createProcessW (err : String)
  | createReadPipe (err : String)
  deriving DecidableEq

/-- `Child`, the two `Handle`s of its `ProcessInfo` among the fields. -/
structure Child where
  process : Handle
  thread : Handle
  stdout : Option Handle
  stderr : Option Handle
  deriving DecidableEq

/-- Where `Child::spawn` is. The first two are `CreatePipe` and `SetHandleInformation` in
`create_handles`. -/
inductive SpawnPc where
  | createPipe (k : PipeKind)
  | setInherit (k : PipeKind)
  | createProcess
  | dropTx (k : PipeKind)
  | unwind (locals : List Handle) (err : Error)
  | returned (res : Except Error Child)

/-- A call of `Child::spawn`. `cmdLine` is what `CreateProcessW` was given. -/
structure Spawn where
  spec : JobSpec
  pc : SpawnPc
  cmdLine : Option WinArgs
  os : OsHandles

namespace Spawn

def start (spec : JobSpec) : Spawn :=
  { spec, pc := .createPipe .stdout, cmdLine := none, os := OsHandles.none }

/-- The steps of a call: a Win32 call with its result, or the drop of a local. -/
inductive Act where
  | createPipe (res : Except String Unit)
  | setHandleInformation (res : Except String Unit)
  | createProcessW (res : Except String Unit)
  | drop

/-- The locals of `spawn` while `create_handles` runs, in the order they are dropped. -/
def outer : PipeKind → List Handle
  | .stdout => []
  | .stderr => [.of (.pipeRx .stdout), .of (.pipeTx .stdout)]

/-- The locals of `spawn` at `CreateProcessW`. -/
def locals : List Handle :=
  [.of (.pipeRx .stderr), .of (.pipeTx .stderr), .of (.pipeRx .stdout), .of (.pipeTx .stdout)]

/-- What `spawn` returns. -/
def child : Child :=
  { process := .of .process, thread := .of .thread
    stdout := some (.of (.pipeRx .stdout)), stderr := some (.of (.pipeRx .stderr)) }

def step (s : Spawn) : Act → Option Spawn
  | .createPipe res =>
    match s.pc, res with
    | .createPipe k, .ok () =>
      some { s with os := (s.os.create (.pipeRx k)).create (.pipeTx k), pc := .setInherit k }
    | .createPipe k, .error err =>
      some { s with
        pc := .unwind (.ofOwned .null (.pipeTx k) :: .ofOwned .null (.pipeRx k) :: outer k)
          (.createReadPipe err) }
    | _, _ => none
  | .setHandleInformation res =>
    match s.pc, res with
    | .setInherit k, .ok () =>
      some { s with
        os := s.os.setInherit (.pipeTx k)
        pc := match k with
          | .stdout => .createPipe .stderr
          | .stderr => .createProcess }
    | .setInherit k, .error err =>
      some { s with
        pc := .unwind (.of (.pipeTx k) :: .of (.pipeRx k) :: outer k) (.createReadPipe err) }
    | _, _ => none
  | .createProcessW res =>
    match s.pc, res with
    | .createProcess, .ok () =>
      some { s with
        os := (s.os.create .process).create .thread
        cmdLine := some (WinArgs.new s.spec.exeAndArgs)
        pc := .dropTx .stdout }
    | .createProcess, .error err =>
      some { s with
        cmdLine := some (WinArgs.new s.spec.exeAndArgs)
        pc := .unwind locals (.createProcessW err) }
    | _, _ => none
  | .drop =>
    match s.pc with
    | .dropTx k =>
      some { s with
        os := (Handle.of (.pipeTx k)).close s.os
        pc := match k with
          | .stdout => .dropTx .stderr
          | .stderr => .returned (.ok child) }
    | .unwind (h :: hs) err => some { s with os := h.close s.os, pc := .unwind hs err }
    | .unwind [] err => some { s with pc := .returned (.error err) }
    | _ => none

end Spawn

end JobRunner.Win
