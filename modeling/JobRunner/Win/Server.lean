import JobRunner.Win.Spawn

/-!
# The server's handles and its children

Any number of `Child::spawn` calls in one server process. Each call has handles of its own, but the
handle table they are in belongs to the process: `CreateProcessW` with `binherithandles` copies
every handle that is inheritable at that moment to the new child, whichever call made it. A child
closes the copies it has, some of them or, by exiting, all.
-/

namespace JobRunner.Win

/-- A child: the write ends it was created with a copy of, and those of them it still has. The end
`k` of the call `j` is the end of the pipe `k` that the call `j` has made. -/
structure ChildProc where
  inherited : Nat → PipeKind → Bool
  holds : Nat → PipeKind → Bool

/-- The server: its `spawn` calls, and the child each of them has created. -/
structure Server where
  spawns : Nat → Option Spawn
  children : Nat → Option ChildProc

namespace Server

def start : Server := { spawns := fun _ => none, children := fun _ => none }

/-- Whether the server has the write end `k` of the call `j` open. -/
def txOpen (s : Server) (j : Nat) (k : PipeKind) : Bool :=
  match s.spawns j with
  | some sp => (sp.os (.pipeTx k)).isOpen
  | none => false

/-- Whether that end is open and marked inheritable. -/
def inheritable (s : Server) (j : Nat) (k : PipeKind) : Bool :=
  match s.spawns j with
  | some sp => (sp.os (.pipeTx k)).isOpen && (sp.os (.pipeTx k)).inherit
  | none => false

/-- The child that `CreateProcessW` makes now. -/
def newChild (s : Server) : ChildProc := { inherited := s.inheritable, holds := s.inheritable }

/-- A call of `spawn` begins or takes a step. The child of `i` closes its copy of an end of a pipe
of `j`, or exits. -/
inductive Act where
  | call (i : Nat) (spec : JobSpec)
  | spawn (i : Nat) (a : Spawn.Act)
  | close (i j : Nat) (k : PipeKind)
  | exit (i : Nat)

def step (s : Server) : Act → Option Server
  | .call i spec =>
    match s.spawns i with
    | none => some { s with spawns := Function.update s.spawns i (some (Spawn.start spec)) }
    | some _ => none
  | .spawn i a =>
    match s.spawns i with
    | none => none
    | some sp =>
      match sp.step a with
      | none => none
      | some sp' =>
        some {
          spawns := Function.update s.spawns i (some sp')
          children :=
            match a with
            | .createProcessW (.ok ()) => Function.update s.children i (some s.newChild)
            | _ => s.children }
  | .close i j k =>
    match s.children i with
    | none => none
    | some c =>
      some { s with
        children := Function.update s.children i (some { c with
          holds := Function.update c.holds j (Function.update (c.holds j) k false) }) }
  | .exit i =>
    match s.children i with
    | none => none
    | some c =>
      some { s with
        children := Function.update s.children i (some { c with holds := fun _ _ => false }) }

/-- The readers of the pipe `k` of the call `i` are at its end: every copy of its write end is
closed. -/
def AtEnd (s : Server) (i : Nat) (k : PipeKind) : Prop :=
  s.txOpen i k = false ∧ ∀ j c, s.children j = some c → c.holds i k = false

end Server

end JobRunner.Win
