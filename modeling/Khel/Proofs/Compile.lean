import Khel.Compile
import Khel.Proofs.Analysis
import Khel.Proofs.Machine.Placed

/-!
# No stage disagrees with another

A fault is a disagreement between two stages. What the analysis leaves is what the stages behind it rely on, so a plain
program meets no fault, except that a name may contain a character without a Latin spelling.

* `Ir.Program.toMachine_yields`: resolved intermediate code becomes machine code without variables.
* `Assembly.program_writes`: such code can be written.
* `compile_faultless`: a plain program compiles, or is rejected by the analysis, or lacks a Latin spelling.
-/

namespace Khel

/-! ## Assembly -/

namespace Assembly

variable {α β : Type}

/-- The step does not fail, whatever is in the pool. -/
def Writes (m : Writing α) : Prop := ∀ pool, ∃ a pool', (ExceptT.run m).run pool = (.ok a, pool')

theorem Writes.pure (a : α) : Writes (Pure.pure a : Writing α) := fun pool => ⟨a, pool, rfl⟩

theorem Writes.bind {m : Writing α} {f : α → Writing β} (hm : Writes m) (hf : ∀ a, Writes (f a)) :
    Writes (m >>= f) := by
  intro pool
  obtain ⟨a, pool₁, ha⟩ := hm pool
  obtain ⟨b, pool₂, hb⟩ := hf a pool₁
  refine ⟨b, pool₂, ?_⟩
  simp only [ExceptT.run_bind, StateT.run_bind, ha]
  exact hb

theorem Writes.get : Writes (get : Writing StringPool) := fun pool => ⟨pool, pool, rfl⟩

theorem intern_writes (text : String) : Writes (intern text) := fun _ => ⟨_, _, rfl⟩

section Code

open Machine (Operand Instr Placed)

variable (target : Target)

/-- Whatever is no variable can be written. -/
theorem operand_writes (bytes : Nat) {o : Operand} (ho : o.VarsIn fun _ => False) :
    Writes (operand target bytes o) := by
  cases o with
  | pseudo x => exact (Operand.varsIn_pseudo.1 ho).elim
  | str text => exact .bind (intern_writes text) fun _ => .pure _
  | imm _ | reg _ | stack _ | data _ => exact .pure _

theorem op1_writes (mnemonic : String) (bytes : Nat) {a : Operand} (ha : a.VarsIn fun _ => False) :
    Writes (op1 target mnemonic bytes a) := .bind (operand_writes target bytes ha) fun _ => .pure _

theorem op2_writes (mnemonic : String) (bytes : Nat) {a b : Operand} (ha : a.VarsIn fun _ => False)
    (hb : b.VarsIn fun _ => False) : Writes (op2 target mnemonic bytes a b) :=
  .bind (operand_writes target bytes ha) fun _ => .bind (operand_writes target bytes hb) fun _ => .pure _

/-- An instruction without variables can be written. -/
theorem instr_writes (externals : List String) (i : Instr) (hi : i.VarsIn fun _ => False) :
    Writes (instr target externals i) := by
  cases i with
  | mov w src dst =>
    have hsrc := hi src (by simp [Instr.operands])
    have hdst := hi dst (by simp [Instr.operands])
    cases src <;> exact op2_writes target _ _ hsrc hdst
  | movsx src dst =>
    refine .bind (operand_writes target 4 (hi src (by simp [Instr.operands]))) fun _ => ?_
    exact .bind (operand_writes target 8 (hi dst (by simp [Instr.operands]))) fun _ => .pure _
  | binary op w a b | cmp w a b =>
    exact op2_writes target _ _ (hi a (by simp [Instr.operands])) (hi b (by simp [Instr.operands]))
  | unary op w a | idiv w a | setcc c a | push a => exact op1_writes target _ _ (hi a (by simp [Instr.operands]))
  | cdq _ | jmp _ | jcc _ _ | label _ | call _ | ret => exact .pure _

theorem instrs_writes (externals : List String) : ∀ code : List Instr, Placed code →
    Writes (instrs target externals code)
  | [], _ => .pure _
  | i :: is, h => by
    obtain ⟨hi, his⟩ := Machine.codeVarsIn_cons.1 h
    refine .bind (instr_writes target externals i hi) fun _ => ?_
    exact .bind (instrs_writes externals is his) fun _ => .pure _

theorem functions_writes (externals : List String) : ∀ fs : List Machine.Function, (∀ f ∈ fs, Placed f.code) →
    Writes (functions target externals fs)
  | [], _ => .pure _
  | f :: fs, h => by
    obtain ⟨hf, hfs⟩ := List.forall_mem_cons.1 h
    refine .bind (.bind (instrs_writes target externals f.code hf) fun _ => .pure _) fun _ => ?_
    exact .bind (functions_writes externals fs hfs) fun _ => .pure _

/-- A program without variables can be written. -/
theorem program_writes (wantsEntry : Bool) {p : Machine.Program} (hp : ∀ f ∈ p.functions, Placed f.code) :
    Writes (program target wantsEntry p) := by
  refine .bind (functions_writes target p.externals p.functions hp) fun _ => ?_
  exact .bind .get fun _ => .pure _

end Code

end Assembly

/-! ## Stages -/

section Stages

variable {T : SymbolTable} {E : Fault → Prop}

/-- Resolved intermediate code becomes machine code without variables. -/
theorem Ir.Program.toMachine_yields (hT : T.IsSound) {ir : Ir.Program} (hf : ∀ f ∈ ir.functions, f.IsResolved T)
    (hs : ir.statics = T.staticVars) (hfun : ∀ f ∈ ir.functions, ∃ t, T.HasFunction f.name t)
    (hnodup : (ir.functions.map Ir.Function.name).Nodup) :
    Yields (ir.toMachine T) E fun r => ∀ f ∈ r.1.functions, Machine.Placed f.code := by
  unfold Ir.Program.toMachine
  refine .bind (Machine.Program.ofIr_yields hT hf hs) ?_
  rintro ⟨code, M⟩ ⟨hM, hcode⟩
  obtain ⟨hnames, hvars⟩ := hcode
  have hdeclared : ∀ f ∈ code.functions, ∃ t, T.HasFunction f.name t := by
    intro f hm
    have hname : f.name ∈ ir.functions.map Ir.Function.name := hnames ▸ List.mem_map_of_mem hm
    obtain ⟨g, hg, hgf⟩ := List.mem_map.1 hname
    exact hgf ▸ hfun g hg
  refine .bind (Machine.Program.assignSlots_yields hM hdeclared (hnames ▸ hnodup) hvars) ?_
  rintro ⟨code', M'⟩ hplaced
  exact .bind (Machine.Program.finish_yields hplaced) fun code'' h => .pure h

theorem Machine.Program.toAssembly_yields {code : Machine.Program} (options : Options)
    (h : ∀ f ∈ code.functions, Machine.Placed f.code) :
    Yields (code.toAssembly options) Machine.LacksLatin fun _ => True := by
  refine .bind (Machine.Program.latinize_yields h) fun code' h' => ?_
  obtain ⟨lines, pool, hrun⟩ := Assembly.program_writes options.target options.entryPoint h' .empty
  rw [hrun]
  exact .pure trivial

/-- What the analysis of a plain program leaves can be lowered, and its intermediate code becomes machine code without
variables. -/
theorem Analyzed.lower_yields {p q : Program} (h : Analyzed p q T) : ∃ ir T', q.lower T = .ok (ir, T') ∧
    Yields (ir.toMachine T') E fun r => ∀ f ∈ r.1.functions, Machine.Placed f.code := by
  have hT := h.isChecked
  obtain ⟨ir, temps, hlower, hv, hs, htyped⟩ := Program.lower_typed hT h.wellTyped h.labelled
  have hnames := names_of_lowersTo ((q.lower_ensures T).of_ok hlower)
  refine ⟨ir, T.withTemps temps, hlower, Ir.Program.toMachine_yields (hT.sound.withTemps hv) ?_ hs ?_ ?_⟩
  · exact fun f hf => (htyped f hf).isResolved hT hv
  · intro f hf
    obtain ⟨params, ret, hfun, _⟩ := htyped f hf
    exact ⟨.fn params ret, hT.hasFunction temps hfun⟩
  · exact hnames ▸ h.defined

end Stages

theorem Yields.ofFaulting {α : Type} {x : Except Fault α} {E : Fault → Prop} {Q : α → Prop} (h : Yields x E Q) :
    Yields (CompileError.ofFaulting x) (fun e => ∃ f, e = .fault f ∧ E f) Q := by
  cases x with
  | ok a => exact h
  | error f => exact ⟨f, rfl, h⟩

/-- Behind the analysis, only a missing Latin spelling stops the compilation of a plain program. -/
theorem Analyzed.compile_yields {p q : Program} {T : SymbolTable} (hp : p.analyze = .ok (q, T)) (h : Analyzed p q T)
    (options : Options) :
    Yields (compile options p) (fun e => ∃ f, e = .fault f ∧ Machine.LacksLatin f) fun _ => True := by
  obtain ⟨ir, T', hlower, hmachine⟩ := h.lower_yields (E := Machine.LacksLatin)
  rw [compile, hp]
  refine Yields.bind (R := (· = (q, T))) rfl ?_
  rintro _ rfl
  refine .bind (.ofFaulting (Q := (· = (ir, T'))) (by rw [hlower]; rfl)) ?_
  rintro _ rfl
  dsimp only
  split
  · exact .pure trivial
  · refine .bind hmachine.ofFaulting fun r hr => ?_
    split
    · exact .pure trivial
    · exact .bind (Machine.Program.toAssembly_yields options hr).ofFaulting fun _ _ => .pure trivial

/-- A plain program compiles, or is rejected by the analysis, or lacks a Latin spelling; no stage ever meets something
that the stages before it should not have left. -/
theorem compile_faultless (options : Options) {p : Program} (hp : p.IsPlain) :
    (∃ output, compile options p = .ok output) ∨
      (∃ r, p.analyze = .error (.rejected r) ∧ compile options p = .error (.rejected r)) ∨
      ∃ c, compile options p = .error (.fault (.noLatinFor c)) := by
  have hanalyze := Program.analyze_yields hp
  cases ha : p.analyze with
  | error e =>
    rw [ha] at hanalyze
    cases e with
    | rejected r => exact .inr (.inl ⟨r, rfl, by rw [compile, ha]; rfl⟩)
    | fault _ | output _ => cases hanalyze
  | ok r =>
    rw [ha] at hanalyze
    have hcompile := Analyzed.compile_yields ha hanalyze options
    cases hc : compile options p with
    | ok output => exact .inl ⟨output, rfl⟩
    | error e =>
      rw [hc] at hcompile
      obtain ⟨_, rfl, c, rfl⟩ := hcompile
      exact .inr (.inr ⟨c, rfl⟩)

/-- A program that is hard on the stages: its loop's variable is wide, and bears the name of a narrow temporary. -/
def tmpLoop : Program :=
  ⟨[.fn ⟨⟨"f", .nowhere⟩, [⟨⟨"n", .nowhere⟩, .long⟩], .long, true, false⟩
    (some [.stmt (.loop (some ⟨"tmp", .nowhere⟩) (.range {} (.int {} 1) (.var {} "n"))
        [.stmt (.eval (.assign {} (.var {} "n")
          (.binary {} (.strict (.arith .sub)) (.var {} "n") (.var {} "tmp"))))] none),
      .stmt (.ret (some (.var {} "n")) .nowhere)])]⟩

theorem tmpLoop_faultless : tmpLoop.IsPlain ∧ ((∃ output, compile {} tmpLoop = .ok output) ∨
    (∃ r, tmpLoop.analyze = .error (.rejected r) ∧ compile {} tmpLoop = .error (.rejected r)) ∨
    ∃ c, compile {} tmpLoop = .error (.fault (.noLatinFor c))) :=
  ⟨by decide, compile_faultless {} (by decide)⟩

end Khel
