import Khel.Proofs.Machine.Semantics

/-!
# Runs of a function

Selected code never asks for the flags that arithmetic leaves, so `Instr.exec` forgets them. Here they are known
wherever the machine defines them, and a function is followed through its jumps and calls. What a call does is told from
outside.

* `Machine.Instr.step`: what one instruction does, flags included.
* `Machine.segment`: what code does up to the next transfer of control.
* `Machine.execute`: what a function does within a number of transfers.
-/

namespace Khel.Machine

/-! ## Flags -/

/-- The flags after `b` was added to `a`. -/
def Flags.ofAdd {n : Nat} (a b : BitVec n) : Flags :=
  { zero := a + b = 0
    sign := (a + b).msb
    overflow := (a + b).toInt ≠ a.toInt + b.toInt }

/-- The flags behind an instruction. A product and a quotient leave flags that code must not rely on, and what only
moves values leaves the flags alone. -/
def Instr.flagsAfter (world : World) (m : State) : Instr → Option Flags
  | .binary .add w src dst => do return .ofAdd (← m.read world w dst) (← m.read world w src)
  | .binary .sub w src dst | .cmp w src dst => do return .ofSub (← m.read world w dst) (← m.read world w src)
  | .binary .mul .. | .idiv .. => none
  | .unary .neg w arg => do return .ofSub 0 (← m.read world w arg)
  | .unary .not .. | .mov .. | .movsx .. | .cdq _ | .jmp _ | .jcc .. | .setcc .. | .label _ | .push _ | .call _
  | .ret =>
    m.flags

/-! ## Steps -/

/-- What one instruction does, and where control goes; or the state in which it has no result. -/
def Instr.step (world : World) (m : State) (i : Instr) : Except State (Flow × State) :=
  match i.exec world m with
  | some (flow, m') => .ok (flow, { m' with flags := i.flagsAfter world m })
  | none => .error m

/-- What code does up to the next transfer of control, and the code behind it. -/
def segment (world : World) (m : State) : List Instr → Except State (Flow × State × List Instr)
  | [] => .ok (.next, m, [])
  | i :: rest =>
    match i.step world m with
    | .ok (.next, m') => segment world m' rest
    | .ok (flow, m') => .ok (flow, m', rest)
    | .error m' => .error m'

/-! ## Runs -/

/-- What follows the first place where a label stands. -/
def codeAfter (l : String) : List Instr → Option (List Instr)
  | [] => none
  | i :: rest => if i = .label l then some rest else codeAfter l rest

/-- What a call leaves, given all transfers of control before it; there may be a call that does not come back. -/
abbrev Callees := List Flow → String → State → Option State

/-- How a run stands. -/
inductive Ending where
  | going
  /-- The next instruction has no result. -/
  | stuck
  /-- Control has left the function: by a return, past its last instruction, by a jump to a label that it does not
  have, or by a call that does not come back. -/
  | left (flow : Flow)
  deriving DecidableEq

/-- A run of a function: its jumps, calls and returns, the last one first, and where it has come to. -/
structure Run where
  past : List Flow
  ending : Ending
  state : State

/-- What the function `code` does from the point `rest` on, until it has made `n` more transfers of control. -/
def execute (world : World) (callees : Callees) (code : List Instr) :
    Nat → (past : List Flow) → (rest : List Instr) → State → Run
  | 0, past, _, m => ⟨past, .going, m⟩
  | n + 1, past, rest, m =>
    match segment world m rest with
    | .error m' => ⟨past, .stuck, m'⟩
    | .ok (.next, m', _) => ⟨past, .left .next, m'⟩
    | .ok (.ret, m', _) => ⟨.ret :: past, .left .ret, m'⟩
    | .ok (.goto l, m', _) =>
      match codeAfter l code with
      | some target => execute world callees code n (.goto l :: past) target m'
      | none => ⟨.goto l :: past, .left (.goto l), m'⟩
    | .ok (.call f, m', rest') =>
      match callees past f m' with
      | some m'' => execute world callees code n (.call f :: past) rest' m''
      | none => ⟨.call f :: past, .left (.call f), m'⟩

end Khel.Machine
