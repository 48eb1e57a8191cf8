import Khel.Machine.Legal
import Khel.Proofs.Machine.Control
import Khel.Proofs.Machine.Selected

/-!
# Legal code does what it stands for

Making code legal splits instructions and moves operands through the scratch registers `r10` and `r11`. Code that leaves
these registers alone cannot tell the difference: the legal code makes the same jumps, calls and returns, and leaves the
same memory, the same flags and the same other registers.

* `Machine.Instr.IsLegalizable`: what an instruction has to look like.
* `Machine.legalCode_agrees`: the legal code of one instruction does what the instruction does.
* `Machine.execute_agrees`: so does the legal code of a function, along every run.
-/

namespace Khel.Machine

/-! ## Code that can be made legal -/

/-- Is it the address of a text? -/
def Operand.isText : Operand → Bool
  | .str _ => true
  | _ => false

/-- Can it be written? -/
def Operand.isPlace : Operand → Bool
  | .reg _ | .stack _ | .data _ => true
  | _ => false

/-- Is it one of the registers that making code legal needs? -/
def Operand.isScratch (o : Operand) : Bool := o = srcScratch || o = dstScratch

/-- The operands that an instruction writes. -/
def Instr.destinations : Instr → List Operand
  | .mov _ _ dst | .movsx _ dst | .binary _ _ _ dst => [dst]
  | .unary _ _ arg | .setcc _ arg => [arg]
  | .cmp .. | .idiv .. | .cdq _ | .jmp _ | .jcc .. | .label _ | .push _ | .call _ | .ret => []

/-- The operands that may be the address of a text. -/
def Instr.textOperands : Instr → List Operand
  | .mov _ src _ | .binary _ _ src _ => [src]
  | .cmp _ left right => [left, right]
  | .idiv _ arg => [arg]
  | .movsx .. | .unary .. | .cdq _ | .jmp _ | .jcc .. | .setcc .. | .label _ | .push _ | .call _ | .ret => []

/-- How many bytes an instruction works on, if that is up to it. -/
def Instr.width? : Instr → Option Width
  | .mov w _ _ | .unary _ w _ | .binary _ w _ _ | .cmp w _ _ | .idiv w _ | .cdq w => some w
  | .movsx .. | .jmp _ | .jcc .. | .setcc .. | .label _ | .push _ | .call _ | .ret => none

/-- All variables have their places, the scratch registers are left alone, only places are written, and texts stand
where an address of eight bytes can be read. -/
structure Instr.IsLegalizable (i : Instr) : Prop where
  placed : ∀ o ∈ i.operands, o.isPseudo = false
  unscratched : ∀ o ∈ i.operands, o.isScratch = false
  place : ∀ o ∈ i.destinations, o.isPlace = true
  text : ∀ o ∈ i.operands, o.isText = true → i.width? = some .quad ∧ o ∈ i.textOperands

instance (i : Instr) : Decidable i.IsLegalizable :=
  decidable_of_iff ((∀ o ∈ i.operands, o.isPseudo = false) ∧ (∀ o ∈ i.operands, o.isScratch = false) ∧
      (∀ o ∈ i.destinations, o.isPlace = true) ∧
      ∀ o ∈ i.operands, o.isText = true → i.width? = some .quad ∧ o ∈ i.textOperands)
    ⟨fun ⟨h₁, h₂, h₃, h₄⟩ => ⟨h₁, h₂, h₃, h₄⟩, fun h => ⟨h.placed, h.unscratched, h.place, h.text⟩⟩

/-- An instruction with a text in it works on eight bytes. -/
theorem Instr.IsLegalizable.quad {i : Instr} (h : i.IsLegalizable) {o : Operand} (ho : o ∈ i.operands) {w : Width}
    (hw : i.width? = some w) (ht : o.isText = true) : Width.quad = w :=
  Option.some.inj ((h.text o ho ht).1.symm.trans hw)

theorem Instr.IsLegalizable.firstPseudo? {i : Instr} (h : i.IsLegalizable) : firstPseudo? i.operands = none := by
  have hall := h.placed
  generalize i.operands = os at hall
  induction os with
  | nil => rfl
  | cons o os ih =>
    obtain ⟨ho, hos⟩ := List.forall_mem_cons.1 hall
    cases o with
    | pseudo x => cases ho
    | _ => exact ih hos

/-- Code is made legal instruction by instruction. -/
theorem legalize_eq : ∀ {code : List Instr}, (∀ i ∈ code, i.IsLegalizable) →
    legalize code = .ok (code.flatMap legalCode)
  | [], _ => rfl
  | i :: is, h => by
    obtain ⟨hi, his⟩ := List.forall_mem_cons.1 h
    rw [legalize, hi.firstPseudo?, legalize_eq his]
    rfl

/-! ## States that agree -/

/-- The states differ at most in the scratch registers. -/
structure State.Agrees (m m' : State) : Prop where
  reg : ∀ r, r ≠ .r10 → r ≠ .r11 → m'.reg r = m.reg r
  flags : m'.flags = m.flags
  pseudo : m'.pseudo = m.pseudo
  memory : m'.memory = m.memory

theorem Operand.isScratch_reg {r : Register} : (Operand.reg r).isScratch = false ↔ r ≠ .r10 ∧ r ≠ .r11 := by
  cases r <;> decide

namespace State.Agrees

variable {world : World} {m m' : State} {w : Width} {o : Operand}

theorem withFlags (h : m.Agrees m') (f : Option Flags) : { m with flags := f }.Agrees { m' with flags := f } :=
  ⟨h.reg, rfl, h.pseudo, h.memory⟩

theorem withReg (h : m.Agrees m') (r : Register) (v : BitVec 64) :
    { m with reg := Function.update m.reg r v }.Agrees { m' with reg := Function.update m'.reg r v } := by
  refine ⟨fun r' h₁₀ h₁₁ => ?_, h.flags, h.pseudo, h.memory⟩
  by_cases hr : r' = r
  · subst hr
    simp
  · simp only [Function.update_of_ne hr]
    exact h.reg r' h₁₀ h₁₁

/-- A scratch register may be written on one side. -/
theorem putScratch (h : m.Agrees m') {r : Register} (hr : (Operand.reg r).isScratch = true) (v : Word w) :
    m.Agrees (m'.putReg r w v) := by
  refine ⟨fun r' h₁₀ h₁₁ => ?_, h.flags, h.pseudo, h.memory⟩
  have hne : r' ≠ r := by
    rintro rfl
    rw [Operand.isScratch_reg.2 ⟨h₁₀, h₁₁⟩] at hr
    cases hr
  rw [State.reg_putReg_of_ne hne]
  exact h.reg r' h₁₀ h₁₁

theorem storeBytes (h : m.Agrees m') (a v : BitVec 64) : ∀ n, (m.storeBytes a v n).Agrees (m'.storeBytes a v n)
  | 0 => h
  | n + 1 => by
    have ih := h.storeBytes a v n
    exact ⟨ih.reg, ih.flags, ih.pseudo, by simp only [State.storeBytes, ih.memory]⟩

/-- What is no scratch register is read alike. -/
theorem read (h : m.Agrees m') (ho : o.isScratch = false) : m'.read world w o = m.read world w o := by
  have hload : ∀ a, m'.load a w = m.load a w := fun a => by cases w <;> simp only [State.load, h.memory]
  cases o with
  | reg r =>
    obtain ⟨h₁₀, h₁₁⟩ := Operand.isScratch_reg.1 ho
    simp only [State.read, h.reg r h₁₀ h₁₁]
  | stack offset => simp only [State.read, h.reg .bp (by decide) (by decide), hload]
  | data x => simp only [State.read, hload]
  | pseudo x => simp only [State.read, h.pseudo]
  | imm _ | str _ => rfl

/-- A place is written alike. -/
theorem write (h : m.Agrees m') (world : World) (hp : o.isPlace = true) (v : Word w) :
    ∃ m₁ m₁', m.write world w v o = some m₁ ∧ m'.write world w v o = some m₁' ∧ m₁.Agrees m₁' := by
  cases o with
  | reg r => exact ⟨_, _, rfl, rfl, h.withReg r _⟩
  | stack offset =>
    refine ⟨_, _, rfl, rfl, ?_⟩
    rw [h.reg .bp (by decide) (by decide)]
    exact h.storeBytes _ _ _
  | data x => exact ⟨_, _, rfl, rfl, h.storeBytes _ _ _⟩
  | imm _ | pseudo _ | str _ => cases hp

theorem writeByte (h : m.Agrees m') (world : World) (hp : o.isPlace = true) (ho : o.isScratch = false) (b : BitVec 8) :
    ∃ m₁ m₁', m.writeByte world b o = some m₁ ∧ m'.writeByte world b o = some m₁' ∧ m₁.Agrees m₁' := by
  cases o with
  | reg r =>
    obtain ⟨h₁₀, h₁₁⟩ := Operand.isScratch_reg.1 ho
    refine ⟨_, _, rfl, rfl, ?_⟩
    rw [h.reg r h₁₀ h₁₁]
    exact h.withReg r _
  | stack offset =>
    refine ⟨_, _, rfl, rfl, ?_⟩
    rw [h.reg .bp (by decide) (by decide)]
    exact h.storeBytes _ _ _
  | data x => exact ⟨_, _, rfl, rfl, h.storeBytes _ _ _⟩
  | imm _ | pseudo _ | str _ => cases hp

end State.Agrees

/-- What is no variable can be read. -/
theorem State.exists_read {o : Operand} (ho : o.isPseudo = false) (world : World) (m : State) (w : Width) :
    ∃ v, m.read world w o = some v := by
  cases o with
  | pseudo x => cases ho
  | _ => exact ⟨_, rfl⟩

theorem State.storeBytes_withFlags (m : State) (f : Option Flags) (a v : BitVec 64) : ∀ n,
    { m with flags := f }.storeBytes a v n = { m.storeBytes a v n with flags := f }
  | 0 => rfl
  | n + 1 => by simp only [State.storeBytes, State.storeBytes_withFlags m f a v n]

/-- A write does not look at the flags. -/
theorem State.write_withFlags (world : World) (m : State) (f : Option Flags) {w : Width} (v : Word w) (o : Operand) :
    { m with flags := f }.write world w v o = (m.write world w v o).map ({ · with flags := f }) := by
  cases o with
  | stack _ | data _ => simp only [State.write, State.storeBytes_withFlags, Option.map_some]
  | pseudo x => cases h : (m.pseudo x).write w v <;> simp [State.write, h]
  | imm _ | reg _ | str _ => rfl

/-! ## Operands that stand for others -/

/-- In `m'`, the operand `o'` is what `o` is in `m`. It is the scratch register `r`, or no scratch register at all. -/
structure Stands (world : World) (m m' : State) (w : Width) (r : Register) (o o' : Operand) : Prop where
  value : ∃ v, m.read world w o = some v ∧ m'.read world w o' = some v
  safe : o' = .reg r ∨ o'.isScratch = false

section Stands

variable {world : World} {m m' m'' : State} {w : Width} {r : Register} {o o' : Operand}

theorem Stands.self (hm : m.Agrees m') (hp : o.isPseudo = false) (ho : o.isScratch = false) :
    Stands world m m' w r o o := by
  obtain ⟨v, hv⟩ := State.exists_read hp world m w
  exact ⟨⟨v, hv, (hm.read ho).trans hv⟩, .inr ho⟩

/-- What was loaded into the other scratch register does no harm. -/
theorem Stands.keep (h : Stands world m m' w r o o') (hm : m.Agrees m') (hm' : m.Agrees m'')
    (hr : m''.reg r = m'.reg r) : Stands world m m'' w r o o' := by
  obtain ⟨⟨v, hv, hv'⟩, hsafe⟩ := h
  refine ⟨⟨v, hv, ?_⟩, hsafe⟩
  rcases hsafe with rfl | ho
  · rw [← hv']
    simp only [State.read, hr]
  · rw [hm'.read ho, ← hm.read ho, hv']

end Stands

/-! ## Blocks -/

/-- What a block of instructions does, up to the first that does not fall through. -/
def block (world : World) (m : State) : List Instr → Except State (Flow × State)
  | [] => .ok (.next, m)
  | i :: rest =>
    match i.step world m with
    | .ok (.next, m') => block world m' rest
    | stopped => stopped

/-- Control goes the same way, or nowhere, and the states agree. -/
inductive StepAgrees : Except State (Flow × State) → Except State (Flow × State) → Prop where
  | ok {flow : Flow} {m m' : State} : m.Agrees m' → StepAgrees (.ok (flow, m)) (.ok (flow, m'))
  | error {m m' : State} : m.Agrees m' → StepAgrees (.error m) (.error m')

section Blocks

variable {world : World} {m m' m'' : State} {w : Width} {r : Register} {a a' b b' src src' dst : Operand}

theorem block_next {i : Instr} {rest : List Instr} (h : i.step world m = .ok (.next, m')) :
    block world m (i :: rest) = block world m' rest := by
  simp [block, h]

theorem block_single (world : World) (m : State) (i : Instr) : block world m [i] = i.step world m := by
  rw [block]
  split
  · next h => rw [h, block]
  · rfl

theorem step_of_exec {i : Instr} {flow : Flow} (h : i.exec world m = some (flow, m')) :
    i.step world m = .ok (flow, { m' with flags := i.flagsAfter world m }) := by
  simp [Instr.step, h]

/-- A move to a register. -/
theorem step_load {v : Word w} (hv : m.read world w src = some v) (r : Register) :
    (Instr.mov w src (.reg r)).step world m = .ok (.next, m.putReg r w v) := by
  have hexec : (Instr.mov w src (.reg r)).exec world m = some (.next, m.putReg r w v) := exec_mov hv rfl
  exact step_of_exec hexec

/-- An operand that stands for another may be moved to its scratch register first. The other scratch register keeps what
it holds. -/
theorem Stands.load {o o₁ o₂ : Operand} {load : List Instr} (h : Stands world m m' w r o o₁) (hm : m.Agrees m')
    (hr : (Operand.reg r).isScratch = true) {needed : Bool} {w' : Width} (hw : needed = true → w' = w)
    (hload : viaRegister needed w' (.reg r) o₁ = (load, o₂)) :
    ∃ m'', (∀ code, block world m' (load ++ code) = block world m'' code) ∧ m.Agrees m'' ∧
      Stands world m m'' w r o o₂ ∧ ∀ r', r' ≠ r → m''.reg r' = m'.reg r' := by
  cases needed with
  | false =>
    cases hload
    exact ⟨m', fun _ => rfl, hm, h, fun _ _ => rfl⟩
  | true =>
    cases hload
    obtain rfl := hw rfl
    obtain ⟨v, hv, hv'⟩ := h.value
    refine ⟨m'.putReg r w' v, fun _ => block_next (step_load hv' r), hm.putScratch hr v, ⟨⟨v, hv, ?_⟩, .inl rfl⟩,
      fun r' hne => ?_⟩
    · exact congrArg some (State.reg_putReg r w' v)
    · exact State.reg_putReg_of_ne hne w' v

/-! ### One instruction with operands that stand for others -/

theorem step_mov_agrees (hm : m.Agrees m') (hs : Stands world m m' w r src src') (hd : dst.isPlace = true) :
    StepAgrees ((Instr.mov w src dst).step world m) ((Instr.mov w src' dst).step world m') := by
  obtain ⟨v, hv, hv'⟩ := hs.value
  obtain ⟨m₁, m₁', hw, hw', hm₁⟩ := hm.write world hd v
  rw [step_of_exec (exec_mov hv hw), step_of_exec (exec_mov hv' hw')]
  simp only [Instr.flagsAfter, hm.flags]
  exact .ok (hm₁.withFlags _)

theorem step_movsx_agrees (hm : m.Agrees m') (hs : Stands world m m' .long r src src') (hd : dst.isPlace = true) :
    StepAgrees ((Instr.movsx src dst).step world m) ((Instr.movsx src' dst).step world m') := by
  obtain ⟨v, hv, hv'⟩ := hs.value
  obtain ⟨m₁, m₁', hw, hw', hm₁⟩ := hm.write world (w := .quad) hd (v.signExtend 64)
  have hexec : (Instr.movsx src dst).exec world m = some (.next, m₁) := by simp [Instr.exec, hv, hw]
  have hexec' : (Instr.movsx src' dst).exec world m' = some (.next, m₁') := by simp [Instr.exec, hv', hw']
  rw [step_of_exec hexec, step_of_exec hexec']
  simp only [Instr.flagsAfter, hm.flags]
  exact .ok (hm₁.withFlags _)

/-- A sign extension that is computed in the scratch register for destinations. -/
theorem extension_agrees (hm : m.Agrees m') (hs : Stands world m m' .long r src src') (hd : dst.isPlace = true) :
    StepAgrees ((Instr.movsx src dst).step world m)
      (block world m' [.movsx src' dstScratch, .mov .quad dstScratch dst]) := by
  obtain ⟨v, hv, hv'⟩ := hs.value
  let wide : Word .quad := v.signExtend 64
  let m₁ := m'.putReg .r11 .quad wide
  have hm₁ : m.Agrees m₁ := hm.putScratch rfl wide
  have hread₁ : m₁.read world .quad dstScratch = some wide := congrArg some (State.reg_putReg .r11 .quad wide)
  have hext : (Instr.movsx src' dstScratch).exec world m' = some (.next, m₁) := by
    simp only [Instr.exec, hv', Option.bind_eq_bind, Option.bind_some]
    rfl
  have hstep : (Instr.movsx src' dstScratch).step world m' = .ok (.next, m₁) := step_of_exec hext
  obtain ⟨m₂, m₂', hw, hw', hm₂⟩ := hm₁.write world hd wide
  have hexec : (Instr.movsx src dst).exec world m = some (.next, m₂) := by
    simp only [Instr.exec, hv, Option.bind_eq_bind, Option.bind_some]
    rw [show m.write world .quad (v.signExtend 64) dst = some m₂ from hw]
    rfl
  rw [block_next hstep, block_single, step_of_exec (exec_mov hread₁ hw'), step_of_exec hexec]
  simp only [Instr.flagsAfter, hm₁.flags]
  exact .ok (hm₂.withFlags _)

theorem step_binary_agrees {op : BinOp} (hm : m.Agrees m') (hs : Stands world m m' w r src src')
    (hd : dst.isPlace = true) (hd' : dst.isScratch = false) :
    StepAgrees ((Instr.binary op w src dst).step world m) ((Instr.binary op w src' dst).step world m') := by
  obtain ⟨v, hv, hv'⟩ := hs.value
  have hp : dst.isPseudo = false := by cases dst <;> first | rfl | cases hd
  obtain ⟨u, hu⟩ := State.exists_read hp world m w
  have hu' : m'.read world w dst = some u := (hm.read hd').trans hu
  obtain ⟨m₁, m₁', hw, hw', hm₁⟩ := hm.write world hd (op.apply u v)
  rw [step_of_exec (exec_binary hu hv hw), step_of_exec (exec_binary hu' hv' hw')]
  have hflags : (Instr.binary op w src' dst).flagsAfter world m' = (Instr.binary op w src dst).flagsAfter world m := by
    cases op <;> simp only [Instr.flagsAfter, hu, hu', hv, hv']
  rw [hflags]
  exact .ok (hm₁.withFlags _)

/-- A product that is computed in the scratch register for destinations. -/
theorem product_agrees (hm : m.Agrees m') (hs : Stands world m m' w .r10 src src') (hd : dst.isPlace = true)
    (hd' : dst.isScratch = false) :
    StepAgrees ((Instr.binary .mul w src dst).step world m)
      (block world m' [.mov w dst dstScratch, .binary .mul w src' dstScratch, .mov w dstScratch dst]) := by
  have hp : dst.isPseudo = false := by cases dst <;> first | rfl | cases hd
  obtain ⟨u, hu⟩ := State.exists_read hp world m w
  have hu' : m'.read world w dst = some u := (hm.read hd').trans hu
  -- The destination is loaded, the product stays in the register, and goes back.
  let m₁ := m'.putReg .r11 w u
  have hm₁ : m.Agrees m₁ := hm.putScratch rfl u
  have hs₁ : Stands world m m₁ w .r10 src src' := hs.keep hm hm₁ (State.reg_putReg_of_ne (by decide) w u)
  obtain ⟨v, hv, hv'⟩ := hs₁.value
  let m₂ : State := { m₁.putReg .r11 w (BinOp.mul.apply u v) with flags := none }
  have hm₂ : { m with flags := none }.Agrees m₂ := (hm₁.putScratch rfl (BinOp.mul.apply u v)).withFlags none
  have hload : (Instr.mov w dst dstScratch).step world m' = .ok (.next, m₁) := step_load hu' .r11
  have hread₁ : m₁.read world w dstScratch = some u := congrArg some (State.reg_putReg .r11 w u)
  have hread₂ : m₂.read world w dstScratch = some (BinOp.mul.apply u v) :=
    congrArg some (State.reg_putReg (m := m₁) .r11 w _)
  have hexec : (Instr.binary .mul w src' dstScratch).exec world m₁ = some (.next, m₂) := exec_binary hread₁ hv' rfl
  have hmul : (Instr.binary .mul w src' dstScratch).step world m₁ = .ok (.next, m₂) := by
    rw [step_of_exec hexec]
    rfl
  obtain ⟨_, m₃', hflags, hw', hm₃⟩ := hm₂.write world hd (BinOp.mul.apply u v)
  rw [State.write_withFlags] at hflags
  obtain ⟨m₃, hw, rfl⟩ := Option.map_eq_some_iff.1 hflags
  have hback : (Instr.mov w dstScratch dst).exec world m₂ = some (.next, m₃') := exec_mov hread₂ hw'
  rw [block_next hload, block_next hmul, block_single, step_of_exec hback, step_of_exec (exec_binary hu hv hw)]
  exact .ok (hm₃.withFlags none)

theorem step_cmp_agrees (hm : m.Agrees m') {r₁ r₂ : Register} (ha : Stands world m m' w r₁ a a')
    (hb : Stands world m m' w r₂ b b') :
    StepAgrees ((Instr.cmp w a b).step world m) ((Instr.cmp w a' b').step world m') := by
  obtain ⟨u, hu, hu'⟩ := ha.value
  obtain ⟨v, hv, hv'⟩ := hb.value
  rw [step_of_exec (exec_cmp hv hu), step_of_exec (exec_cmp hv' hu')]
  simp only [Instr.flagsAfter, hu, hu', hv, hv']
  exact .ok (hm.withFlags _)

theorem step_idiv_agrees (hm : m.Agrees m') (ha : Stands world m m' w r a a') :
    StepAgrees ((Instr.idiv w a).step world m) ((Instr.idiv w a').step world m') := by
  obtain ⟨d, hd, hd'⟩ := ha.value
  have hax : m'.reg .ax = m.reg .ax := hm.reg .ax (by decide) (by decide)
  have hdx : m'.reg .dx = m.reg .dx := hm.reg .dx (by decide) (by decide)
  cases hq : divide ((m.reg .dx).setWidth w.bits) ((m.reg .ax).setWidth w.bits) d with
  | none =>
    have hexec : (Instr.idiv w a).exec world m = none := by simp [Instr.exec, hd, hq]
    have hexec' : (Instr.idiv w a').exec world m' = none := by simp [Instr.exec, hd', hax, hdx, hq]
    simp only [Instr.step, hexec, hexec']
    exact .error hm
  | some qr =>
    obtain ⟨q, rem⟩ := qr
    have hq' : divide ((m'.reg .dx).setWidth w.bits) ((m'.reg .ax).setWidth w.bits) d = some (q, rem) := by
      rw [hax, hdx, hq]
    rw [step_of_exec (exec_idiv hd hq rfl rfl), step_of_exec (exec_idiv hd' hq' rfl rfl)]
    exact .ok (((hm.withReg .ax _).withReg .dx _).withFlags _)

theorem step_push_agrees (hm : m.Agrees m') (ha : Stands world m m' .quad r a a') :
    StepAgrees ((Instr.push a).step world m) ((Instr.push a').step world m') := by
  obtain ⟨v, hv, hv'⟩ := ha.value
  have hsp : m'.reg .sp = m.reg .sp := hm.reg .sp (by decide) (by decide)
  have hexec : (Instr.push a).exec world m = some (.next, ({ m with reg := Function.update m.reg .sp (m.reg .sp - 8) } :
      State).storeBytes (m.reg .sp - 8) v 8) := by
    simp [Instr.exec, hv]
  have hexec' : (Instr.push a').exec world m' = some (.next,
      ({ m' with reg := Function.update m'.reg .sp (m.reg .sp - 8) } : State).storeBytes (m.reg .sp - 8) v 8) := by
    simp [Instr.exec, hv', hsp]
  rw [step_of_exec hexec, step_of_exec hexec']
  simp only [Instr.flagsAfter, hm.flags]
  exact .ok (((hm.withReg .sp _).storeBytes _ _ _).withFlags _)

/-! ### Instructions that are legal as they are -/

theorem step_unary_agrees {op : UnOp} {arg : Operand} (hm : m.Agrees m') (hi : (Instr.unary op w arg).IsLegalizable) :
    StepAgrees ((Instr.unary op w arg).step world m) ((Instr.unary op w arg).step world m') := by
  have hmem : arg ∈ (Instr.unary op w arg).operands := by simp [Instr.operands]
  obtain ⟨v, hv⟩ := State.exists_read (hi.placed arg hmem) world m w
  have hv' : m'.read world w arg = some v := (hm.read (hi.unscratched arg hmem)).trans hv
  have hplace : arg.isPlace = true := hi.place arg (by simp [Instr.destinations])
  obtain ⟨m₁, m₁', hw, hw', hm₁⟩ := hm.write world hplace (op.apply v)
  rw [step_of_exec (exec_unary hv hw), step_of_exec (exec_unary hv' hw')]
  cases op with
  | neg =>
    simp only [Instr.flagsAfter, hv, hv']
    exact .ok (hm₁.withFlags _)
  | not =>
    simp only [Instr.flagsAfter, hm.flags]
    exact .ok (hm₁.withFlags _)

theorem step_setcc_agrees {c : Cond} {arg : Operand} (hm : m.Agrees m') (hi : (Instr.setcc c arg).IsLegalizable) :
    StepAgrees ((Instr.setcc c arg).step world m) ((Instr.setcc c arg).step world m') := by
  have hmem : arg ∈ (Instr.setcc c arg).operands := by simp [Instr.operands]
  have hplace : arg.isPlace = true := hi.place arg (by simp [Instr.destinations])
  cases hf : m.flags with
  | none =>
    have hf' : m'.flags = none := hm.flags.trans hf
    simp only [Instr.step, Instr.exec, hf, hf', Option.bind_eq_bind, Option.bind_none]
    exact .error hm
  | some f =>
    have hf' : m'.flags = some f := hm.flags.trans hf
    obtain ⟨m₁, m₁', hw, hw', hm₁⟩ :=
      hm.writeByte world hplace (hi.unscratched arg hmem) (if c.holds f then 1 else 0)
    rw [step_of_exec (exec_setcc hf hw), step_of_exec (exec_setcc hf' hw')]
    simp only [Instr.flagsAfter, hm.flags]
    exact .ok (hm₁.withFlags _)

theorem step_cdq_agrees (hm : m.Agrees m') (w : Width) :
    StepAgrees ((Instr.cdq w).step world m) ((Instr.cdq w).step world m') := by
  have hexec : ∀ k : State, (Instr.cdq w).exec world k =
      some (.next, k.putReg .dx w (signBits ((k.reg .ax).setWidth w.bits))) := fun _ => rfl
  rw [step_of_exec (hexec m), step_of_exec (hexec m'), hm.reg .ax (by decide) (by decide)]
  simp only [Instr.flagsAfter, hm.flags]
  exact .ok ((hm.withReg .dx _).withFlags _)

theorem step_jcc_agrees (hm : m.Agrees m') (c : Cond) (target : String) :
    StepAgrees ((Instr.jcc c target).step world m) ((Instr.jcc c target).step world m') := by
  simp only [Instr.step, Instr.exec, Instr.flagsAfter, hm.flags]
  cases m.flags with
  | none => exact .error hm
  | some f => exact .ok (hm.withFlags _)

end Blocks

/-! ## The legal code of one instruction -/

section LegalCode

variable {world : World} {m m' : State} {w : Width} {a b src dst arg : Operand}

@[simp] theorem Operand.isMemory_reg (r : Register) : (Operand.reg r).isMemory = false := rfl

@[simp] theorem Operand.isMemory_imm (v : Int64) : (Operand.imm v).isMemory = false := rfl

theorem loadText_eq (scratch o : Operand) : loadText scratch o = viaRegister o.isText .quad scratch o := by
  cases o <;> rfl

/-- A load is not split. -/
theorem splitMemory_load {needed : Bool} {w : Width} {r : Register} {o o' : Operand} {load : List Instr}
    (h : viaRegister needed w (.reg r) o = (load, o')) : load.flatMap splitMemory = load := by
  cases needed <;> cases h <;> simp [splitMemory]

theorem splitMemory_mov (w : Width) (src dst : Operand) : splitMemory (.mov w src dst) =
    (viaRegister (src.isMemory && dst.isMemory) w srcScratch src).1 ++
      [.mov w (viaRegister (src.isMemory && dst.isMemory) w srcScratch src).2 dst] := by
  cases h : src.isMemory && dst.isMemory <;> simp [splitMemory, viaRegister, h]

theorem splitMemory_cmp (w : Width) (a b : Operand) : splitMemory (.cmp w a b) =
    (viaRegister (a.isMemory && b.isMemory) w srcScratch a).1 ++
      [.cmp w (viaRegister (a.isMemory && b.isMemory) w srcScratch a).2 b] := by
  cases h : a.isMemory && b.isMemory <;> simp [splitMemory, viaRegister, h]

theorem splitMemory_binary (op : BinOp) (w : Width) (src dst : Operand) : splitMemory (.binary op w src dst) =
    (viaRegister (src.isMemory && dst.isMemory) w srcScratch src).1 ++
      [.binary op w (viaRegister (src.isMemory && dst.isMemory) w srcScratch src).2 dst] := by
  cases h : src.isMemory && dst.isMemory <;> simp [splitMemory, viaRegister, h]

/-- The code of a comparison: loads, one after the other, and the comparison of what stands for the operands then. -/
theorem legalCode_cmp {a₁ a₂ a₃ b₁ b₂ : Operand} {l₁ l₂ l₃ l₄ l₅ : List Instr}
    (h₁ : viaRegister a.isText .quad srcScratch a = (l₁, a₁)) (h₂ : viaRegister b.isText .quad dstScratch b = (l₂, b₁))
    (h₃ : viaRegister a₁.isLargeImm w srcScratch a₁ = (l₃, a₂)) (h₄ : viaRegister b₁.isImm w dstScratch b₁ = (l₄, b₂))
    (h₅ : viaRegister (a₂.isMemory && b₂.isMemory) w srcScratch a₂ = (l₅, a₃)) :
    legalCode (.cmp w a b) = l₁ ++ (l₂ ++ (l₃ ++ (l₄ ++ (l₅ ++ [.cmp w a₃ b₂])))) := by
  simp only [legalCode, loadTexts, loadText_eq, h₁, h₂, legalOperands, legalCmp, h₃, h₄, List.flatMap_append,
    splitMemory_load h₁, splitMemory_load h₂, splitMemory_load h₃, splitMemory_load h₄, List.flatMap_cons,
    List.flatMap_nil, splitMemory_cmp, h₅, List.append_nil, List.append_assoc]

theorem legalCode_idiv {a₁ a₂ : Operand} {l₁ l₂ : List Instr}
    (h₁ : viaRegister a.isText .quad srcScratch a = (l₁, a₁)) (h₂ : viaRegister a₁.isImm w srcScratch a₁ = (l₂, a₂)) :
    legalCode (.idiv w a) = l₁ ++ (l₂ ++ [.idiv w a₂]) := by
  simp only [legalCode, loadTexts, loadText_eq, h₁, legalOperands, legalIdiv, h₂, List.flatMap_append,
    splitMemory_load h₁, splitMemory_load h₂, List.flatMap_cons, List.flatMap_nil, splitMemory, List.append_nil]

theorem legalCode_push {a₁ : Operand} {l₁ : List Instr}
    (h₁ : viaRegister a.isLargeImm .quad srcScratch a = (l₁, a₁)) : legalCode (.push a) = l₁ ++ [.push a₁] := by
  simp only [legalCode, loadTexts, legalOperands, legalPush, h₁, List.nil_append, List.flatMap_append,
    splitMemory_load h₁, List.flatMap_cons, List.flatMap_nil, splitMemory, List.append_nil]

/-- The code of arithmetic whose result goes where it is wanted. -/
theorem legalCode_binary {op : BinOp} {s₁ s₂ s₃ : Operand} {l₁ l₂ l₃ : List Instr}
    (h₁ : viaRegister src.isText .quad srcScratch src = (l₁, s₁))
    (h₂ : viaRegister (w = .quad && s₁.isLargeImm) w srcScratch s₁ = (l₂, s₂)) (hop : (op = .mul && !dst.isReg) = false)
    (h₃ : viaRegister (s₂.isMemory && dst.isMemory) w srcScratch s₂ = (l₃, s₃)) :
    legalCode (.binary op w src dst) = l₁ ++ (l₂ ++ (l₃ ++ [.binary op w s₃ dst])) := by
  simp only [legalCode, loadTexts, loadText_eq, h₁, legalOperands, legalBinary, h₂, hop, Bool.false_eq_true, if_false,
    List.flatMap_append, splitMemory_load h₁, splitMemory_load h₂, List.flatMap_cons, List.flatMap_nil,
    splitMemory_binary, h₃, List.append_nil]

/-- The code of a product that goes to memory. -/
theorem legalCode_product {op : BinOp} {s₁ s₂ : Operand} {l₁ l₂ : List Instr}
    (h₁ : viaRegister src.isText .quad srcScratch src = (l₁, s₁))
    (h₂ : viaRegister (w = .quad && s₁.isLargeImm) w srcScratch s₁ = (l₂, s₂))
    (hop : (op = .mul && !dst.isReg) = true) :
    legalCode (.binary op w src dst) =
      l₁ ++ (l₂ ++ [.mov w dst dstScratch, .binary op w s₂ dstScratch, .mov w dstScratch dst]) := by
  simp only [legalCode, loadTexts, loadText_eq, h₁, legalOperands, legalBinary, h₂, hop, if_true,
    List.flatMap_append, splitMemory_load h₁, splitMemory_load h₂, List.flatMap_cons, List.flatMap_nil, splitMemory,
    dstScratch, Operand.isMemory_reg, Bool.and_false, Bool.false_and, Bool.false_eq_true, if_false, List.append_nil,
    List.singleton_append]

/-- The code of a move. -/
theorem legalCode_mov {s₁ : Operand} {l₁ : List Instr} (hsrc : src.isLargeImm = false)
    (h₁ : viaRegister (src.isMemory && dst.isMemory) w srcScratch src = (l₁, s₁)) :
    legalCode (.mov w src dst) = l₁ ++ [.mov w s₁ dst] := by
  simp only [legalCode, loadTexts, legalOperands, legalMov, hsrc, Bool.false_eq_true, if_false, List.nil_append,
    List.flatMap_cons, List.flatMap_nil, splitMemory_mov, h₁, List.append_nil]

/-- A large constant in a narrow move. -/
theorem legalCode_mov_low {v : Int64} (hlarge : (Operand.imm v).isLargeImm = true) :
    legalCode (.mov .long (.imm v) dst) = [.mov .long (.imm v.toInt32.toInt64) dst] := by
  simp [legalCode, loadTexts, legalOperands, legalMov, hlarge, splitMemory]

/-- A large constant in a wide move. -/
theorem legalCode_mov_wide {v : Int64} (hlarge : (Operand.imm v).isLargeImm = true) {s₁ : Operand} {l₁ : List Instr}
    (h₁ : viaRegister true .quad srcScratch (.imm v) = (l₁, s₁)) :
    legalCode (.mov .quad (.imm v) dst) = l₁ ++ [.mov .quad s₁ dst] := by
  cases h₁
  simp [legalCode, loadTexts, legalOperands, legalMov, hlarge, splitMemory, srcScratch]

theorem legalCode_movsx {s₁ : Operand} {l₁ : List Instr} (h₁ : viaRegister src.isImm .long srcScratch src = (l₁, s₁)) :
    legalCode (.movsx src dst) = l₁ ++
      if dst.isMemory then [.movsx s₁ dstScratch, .mov .quad dstScratch dst] else [.movsx s₁ dst] := by
  cases h : dst.isMemory <;>
    simp [legalCode, loadTexts, legalOperands, legalMovsx, h₁, h, splitMemory_load h₁, splitMemory, dstScratch]

/-! ### What the code does -/

theorem cmp_agrees (hm : m.Agrees m') (hi : (Instr.cmp w a b).IsLegalizable) :
    StepAgrees ((Instr.cmp w a b).step world m) (block world m' (legalCode (.cmp w a b))) := by
  have hmemA : a ∈ (Instr.cmp w a b).operands := by simp [Instr.operands]
  have hmemB : b ∈ (Instr.cmp w a b).operands := by simp [Instr.operands]
  have hA : Stands world m m' w .r10 a a := .self hm (hi.placed a hmemA) (hi.unscratched a hmemA)
  have hB : Stands world m m' w .r11 b b := .self hm (hi.placed b hmemB) (hi.unscratched b hmemB)
  rcases e₁ : viaRegister a.isText .quad srcScratch a with ⟨l₁, a₁⟩
  rcases e₂ : viaRegister b.isText .quad dstScratch b with ⟨l₂, b₁⟩
  rcases e₃ : viaRegister a₁.isLargeImm w srcScratch a₁ with ⟨l₃, a₂⟩
  rcases e₄ : viaRegister b₁.isImm w dstScratch b₁ with ⟨l₄, b₂⟩
  rcases e₅ : viaRegister (a₂.isMemory && b₂.isMemory) w srcScratch a₂ with ⟨l₅, a₃⟩
  obtain ⟨m₁, h₁, hm₁, hA₁, keep₁⟩ := hA.load hm rfl (hi.quad hmemA rfl) e₁
  have hB₁ := hB.keep hm hm₁ (keep₁ .r11 (by decide))
  obtain ⟨m₂, h₂, hm₂, hB₂, keep₂⟩ := hB₁.load hm₁ rfl (hi.quad hmemB rfl) e₂
  have hA₂ := hA₁.keep hm₁ hm₂ (keep₂ .r10 (by decide))
  obtain ⟨m₃, h₃, hm₃, hA₃, keep₃⟩ := hA₂.load hm₂ rfl (fun _ => rfl) e₃
  have hB₃ := hB₂.keep hm₂ hm₃ (keep₃ .r11 (by decide))
  obtain ⟨m₄, h₄, hm₄, hB₄, keep₄⟩ := hB₃.load hm₃ rfl (fun _ => rfl) e₄
  have hA₄ := hA₃.keep hm₃ hm₄ (keep₄ .r10 (by decide))
  obtain ⟨m₅, h₅, hm₅, hA₅, keep₅⟩ := hA₄.load hm₄ rfl (fun _ => rfl) e₅
  have hB₅ := hB₄.keep hm₄ hm₅ (keep₅ .r11 (by decide))
  rw [legalCode_cmp e₁ e₂ e₃ e₄ e₅, h₁, h₂, h₃, h₄, h₅, block_single]
  exact step_cmp_agrees hm₅ hA₅ hB₅

theorem idiv_agrees (hm : m.Agrees m') (hi : (Instr.idiv w a).IsLegalizable) :
    StepAgrees ((Instr.idiv w a).step world m) (block world m' (legalCode (.idiv w a))) := by
  have hmem : a ∈ (Instr.idiv w a).operands := by simp [Instr.operands]
  have hA : Stands world m m' w .r10 a a := .self hm (hi.placed a hmem) (hi.unscratched a hmem)
  rcases e₁ : viaRegister a.isText .quad srcScratch a with ⟨l₁, a₁⟩
  rcases e₂ : viaRegister a₁.isImm w srcScratch a₁ with ⟨l₂, a₂⟩
  obtain ⟨m₁, h₁, hm₁, hA₁, -⟩ := hA.load hm rfl (hi.quad hmem rfl) e₁
  obtain ⟨m₂, h₂, hm₂, hA₂, -⟩ := hA₁.load hm₁ rfl (fun _ => rfl) e₂
  rw [legalCode_idiv e₁ e₂, h₁, h₂, block_single]
  exact step_idiv_agrees hm₂ hA₂

theorem push_agrees (hm : m.Agrees m') (hi : (Instr.push a).IsLegalizable) :
    StepAgrees ((Instr.push a).step world m) (block world m' (legalCode (.push a))) := by
  have hmem : a ∈ (Instr.push a).operands := by simp [Instr.operands]
  have hA : Stands world m m' .quad .r10 a a := .self hm (hi.placed a hmem) (hi.unscratched a hmem)
  rcases e₁ : viaRegister a.isLargeImm .quad srcScratch a with ⟨l₁, a₁⟩
  obtain ⟨m₁, h₁, hm₁, hA₁, -⟩ := hA.load hm rfl (fun _ => rfl) e₁
  rw [legalCode_push e₁, h₁, block_single]
  exact step_push_agrees hm₁ hA₁

theorem binary_agrees {op : BinOp} (hm : m.Agrees m') (hi : (Instr.binary op w src dst).IsLegalizable) :
    StepAgrees ((Instr.binary op w src dst).step world m) (block world m' (legalCode (.binary op w src dst))) := by
  have hmemS : src ∈ (Instr.binary op w src dst).operands := by simp [Instr.operands]
  have hmemD : dst ∈ (Instr.binary op w src dst).operands := by simp [Instr.operands]
  have hplace : dst.isPlace = true := hi.place dst (by simp [Instr.destinations])
  have hdst := hi.unscratched dst hmemD
  have hS : Stands world m m' w .r10 src src := .self hm (hi.placed src hmemS) (hi.unscratched src hmemS)
  rcases e₁ : viaRegister src.isText .quad srcScratch src with ⟨l₁, s₁⟩
  rcases e₂ : viaRegister (w = .quad && s₁.isLargeImm) w srcScratch s₁ with ⟨l₂, s₂⟩
  obtain ⟨m₁, h₁, hm₁, hS₁, -⟩ := hS.load hm rfl (hi.quad hmemS rfl) e₁
  obtain ⟨m₂, h₂, hm₂, hS₂, -⟩ := hS₁.load hm₁ rfl (fun _ => rfl) e₂
  cases hop : op = .mul && !dst.isReg with
  | false =>
    rcases e₃ : viaRegister (s₂.isMemory && dst.isMemory) w srcScratch s₂ with ⟨l₃, s₃⟩
    obtain ⟨m₃, h₃, hm₃, hS₃, -⟩ := hS₂.load hm₂ rfl (fun _ => rfl) e₃
    rw [legalCode_binary e₁ e₂ hop e₃, h₁, h₂, h₃, block_single]
    exact step_binary_agrees hm₃ hS₃ hplace hdst
  | true =>
    obtain ⟨rfl, -⟩ : op = .mul ∧ dst.isReg = false := by simpa using hop
    rw [legalCode_product e₁ e₂ hop, h₁, h₂]
    exact product_agrees hm₂ hS₂ hplace hdst

theorem mov_agrees (hm : m.Agrees m') (hi : (Instr.mov w src dst).IsLegalizable) :
    StepAgrees ((Instr.mov w src dst).step world m) (block world m' (legalCode (.mov w src dst))) := by
  have hmem : src ∈ (Instr.mov w src dst).operands := by simp [Instr.operands]
  have hplace : dst.isPlace = true := hi.place dst (by simp [Instr.destinations])
  have hS : Stands world m m' w .r10 src src := .self hm (hi.placed src hmem) (hi.unscratched src hmem)
  cases hlarge : src.isLargeImm with
  | false =>
    rcases e₁ : viaRegister (src.isMemory && dst.isMemory) w srcScratch src with ⟨l₁, s₁⟩
    obtain ⟨m₁, h₁, hm₁, hS₁, -⟩ := hS.load hm rfl (fun _ => rfl) e₁
    rw [legalCode_mov hlarge e₁, h₁, block_single]
    exact step_mov_agrees hm₁ hS₁ hplace
  | true =>
    obtain ⟨v, rfl⟩ : ∃ v, src = .imm v := by
      cases src with
      | imm v => exact ⟨v, rfl⟩
      | _ => cases hlarge
    cases w with
    | long =>
      -- The low half of the constant is all that is moved anyway.
      have hlow : Stands world m m' .long .r10 (.imm v) (.imm v.toInt32.toInt64) := by
        refine ⟨⟨_, rfl, congrArg some ?_⟩, .inr rfl⟩
        rw [Int32.toBitVec_toInt64, Int64.toBitVec_toInt32]
        exact (setWidth_signExtend _).trans (BitVec.signExtend_eq_setWidth_of_le _ (by decide))
      rw [legalCode_mov_low hlarge, block_single]
      exact step_mov_agrees hm hlow hplace
    | quad =>
      rcases e₁ : viaRegister true .quad srcScratch (.imm v) with ⟨l₁, s₁⟩
      obtain ⟨m₁, h₁, hm₁, hS₁, -⟩ := hS.load hm rfl (fun _ => rfl) e₁
      rw [legalCode_mov_wide hlarge e₁, h₁, block_single]
      exact step_mov_agrees hm₁ hS₁ hplace

theorem movsx_agrees (hm : m.Agrees m') (hi : (Instr.movsx src dst).IsLegalizable) :
    StepAgrees ((Instr.movsx src dst).step world m) (block world m' (legalCode (.movsx src dst))) := by
  have hmem : src ∈ (Instr.movsx src dst).operands := by simp [Instr.operands]
  have hplace : dst.isPlace = true := hi.place dst (by simp [Instr.destinations])
  have hS : Stands world m m' .long .r10 src src := .self hm (hi.placed src hmem) (hi.unscratched src hmem)
  rcases e₁ : viaRegister src.isImm .long srcScratch src with ⟨l₁, s₁⟩
  obtain ⟨m₁, h₁, hm₁, hS₁, -⟩ := hS.load hm rfl (fun _ => rfl) e₁
  rw [legalCode_movsx e₁, h₁]
  split
  · exact extension_agrees hm₁ hS₁ hplace
  · rw [block_single]
    exact step_movsx_agrees hm₁ hS₁ hplace

/-- The legal code of an instruction does what the instruction does. -/
theorem legalCode_agrees (world : World) (hm : m.Agrees m') {i : Instr} (hi : i.IsLegalizable) :
    StepAgrees (i.step world m) (block world m' (legalCode i)) := by
  cases i with
  | mov w src dst => exact mov_agrees hm hi
  | movsx src dst => exact movsx_agrees hm hi
  | binary op w src dst => exact binary_agrees hm hi
  | cmp w a b => exact cmp_agrees hm hi
  | idiv w a => exact idiv_agrees hm hi
  | push a => exact push_agrees hm hi
  | unary op w arg => exact block_single world m' _ ▸ step_unary_agrees hm hi
  | setcc c arg => exact block_single world m' _ ▸ step_setcc_agrees hm hi
  | cdq w => exact block_single world m' _ ▸ step_cdq_agrees hm w
  | jcc c target => exact block_single world m' _ ▸ step_jcc_agrees hm c target
  | jmp _ | label _ | call _ | ret => exact .ok hm

end LegalCode

/-! ## Runs -/

/-- Control goes the same way, or nowhere, the states agree, and the code behind is the legal code of what is behind. -/
inductive SegmentAgrees :
    Except State (Flow × State × List Instr) → Except State (Flow × State × List Instr) → Prop where
  | ok {flow : Flow} {m m' : State} {rest : List Instr} : m.Agrees m' →
    SegmentAgrees (.ok (flow, m, rest)) (.ok (flow, m', rest.flatMap legalCode))
  | error {m m' : State} : m.Agrees m' → SegmentAgrees (.error m) (.error m')

/-- The runs have made the same jumps, calls and returns, stand alike, and their states agree. -/
structure Run.Agrees (run run' : Run) : Prop where
  past : run'.past = run.past
  ending : run'.ending = run.ending
  state : run.state.Agrees run'.state

/-- From states that agree, calls come back in states that agree, or do not come back on either side. -/
def Callees.Agree (callees callees' : Callees) : Prop :=
  ∀ past f m m', m.Agrees m' → Option.Rel State.Agrees (callees past f m) (callees' past f m')

section Runs

variable {world : World} {m m' : State} {code rest : List Instr}

/-- Control is transferred only by instructions that are legal as they are. -/
theorem legalCode_of_transfer {i : Instr} {flow : Flow} (h : i.step world m = .ok (flow, m')) (hflow : flow ≠ .next) :
    legalCode i = [i] := by
  rw [Instr.step] at h
  split at h
  · next flow₁ m₁ hexec =>
    cases h
    cases i with
    | unary _ _ _ | cdq _ | jmp _ | jcc _ _ | setcc _ _ | label _ | call _ | ret => rfl
    | mov _ _ _ | movsx _ _ | binary _ _ _ _ | cmp _ _ _ | idiv _ _ | push _ =>
      simp only [Instr.exec, Option.bind_eq_bind, Option.bind_eq_some_iff, Option.pure_def, Option.some.injEq,
        Prod.mk.injEq] at hexec
      grind
  · cases h

theorem segment_append_of_next : ∀ {a : List Instr} {m : State} (b : List Instr), block world m a = .ok (.next, m') →
    segment world m (a ++ b) = segment world m' b
  | [], _, _, h => by
    cases h
    rfl
  | i :: a, m, b, h => by
    rw [block] at h
    rw [List.cons_append, segment]
    split at h
    · next m₁ hi =>
      rw [hi]
      exact segment_append_of_next b h
    · next hne => exact absurd h (hne m')

theorem segment_append_of_error : ∀ {a : List Instr} {m : State} (b : List Instr), block world m a = .error m' →
    segment world m (a ++ b) = .error m'
  | [], _, _, h => by cases h
  | i :: a, m, b, h => by
    rw [block] at h
    rw [List.cons_append, segment]
    split at h
    · next m₁ hi =>
      rw [hi]
      exact segment_append_of_error b h
    · rw [h]

/-- A stretch of code and its legal code, up to the next transfer of control. -/
theorem segment_agrees (world : World) : ∀ {rest : List Instr} {m m' : State}, (∀ i ∈ rest, i.IsLegalizable) →
    m.Agrees m' → SegmentAgrees (segment world m rest) (segment world m' (rest.flatMap legalCode))
  | [], _, _, _, hm => @SegmentAgrees.ok _ _ _ [] hm
  | i :: rest, m, m', h, hm => by
    obtain ⟨hi, hrest⟩ := List.forall_mem_cons.1 h
    have hstep := legalCode_agrees world hm hi
    rw [List.flatMap_cons, segment]
    generalize hx : i.step world m = x at hstep
    generalize hy : block world m' (legalCode i) = y at hstep
    cases hstep with
    | error hm₁ =>
      rw [segment_append_of_error _ hy]
      exact .error hm₁
    | @ok flow m₁ m₁' hm₁ =>
      by_cases hflow : flow = .next
      · subst hflow
        rw [segment_append_of_next _ hy]
        exact segment_agrees world hrest hm₁
      · have hlegal : legalCode i = [i] := legalCode_of_transfer hx hflow
        rw [hlegal, block_single] at hy
        rw [hlegal, List.singleton_append, segment, hy]
        cases flow with
        | next => exact absurd rfl hflow
        | goto _ | call _ | ret => exact .ok hm₁

/-! ### Labels -/

theorem label_of_mem_splitMemory {l : String} {i : Instr} (h : .label l ∈ splitMemory i) : i = .label l := by
  cases i <;> grind [splitMemory]

theorem label_of_mem_legalOperands {l : String} {i : Instr} (h : .label l ∈ legalOperands i) : i = .label l := by
  cases i <;>
    grind [legalOperands, legalMov.eq_def, legalMovsx, legalCmp, legalPush, legalIdiv, legalBinary, viaRegister]

theorem label_not_mem_loadTexts {l : String} (i : Instr) : .label l ∉ (loadTexts i).1 := by
  cases i <;> grind [loadTexts, loadText_eq, viaRegister]

theorem label_of_loadTexts {l : String} {i : Instr} (h : (loadTexts i).2 = .label l) : i = .label l := by
  cases i <;> simp_all [loadTexts]

/-- Legal code has no labels of its own. -/
theorem label_of_mem_legalCode {l : String} {i : Instr} (h : .label l ∈ legalCode i) : i = .label l := by
  obtain ⟨j, hj, hl⟩ := List.mem_flatMap.1 h
  obtain rfl := label_of_mem_splitMemory hl
  rcases List.mem_append.1 hj with hj | hj
  · exact absurd hj (label_not_mem_loadTexts i)
  · exact label_of_loadTexts (label_of_mem_legalOperands hj)

theorem codeAfter_append {l : String} : ∀ {a : List Instr} (b : List Instr), .label l ∉ a →
    codeAfter l (a ++ b) = codeAfter l b
  | [], _, _ => rfl
  | i :: a, b, h => by
    obtain ⟨hi, ha⟩ := not_or.1 (mt List.mem_cons.2 h)
    rw [List.cons_append, codeAfter, if_neg (Ne.symm hi), codeAfter_append b ha]

/-- A label stands in legal code where it stood before. -/
theorem codeAfter_legalCode (l : String) : ∀ code : List Instr,
    codeAfter l (code.flatMap legalCode) = (codeAfter l code).map (·.flatMap legalCode)
  | [] => rfl
  | i :: code => by
    rw [List.flatMap_cons, codeAfter]
    split
    · next hi =>
      subst hi
      exact if_pos rfl
    · next hi => rw [codeAfter_append _ (mt label_of_mem_legalCode hi), codeAfter_legalCode l code]

theorem codeAfter_subset {l : String} {target : List Instr} : ∀ {code : List Instr}, codeAfter l code = some target →
    target ⊆ code
  | [], h => by cases h
  | i :: code, h => by
    rw [codeAfter] at h
    split at h
    · cases h
      exact List.subset_cons_self i _
    · exact List.subset_cons_of_subset i (codeAfter_subset h)

theorem segment_subset {flow : Flow} {target : List Instr} : ∀ {rest : List Instr} {m : State},
    segment world m rest = .ok (flow, m', target) → target ⊆ rest
  | [], _, h => by
    cases h
    exact List.Subset.refl []
  | i :: rest, m, h => by
    rw [segment] at h
    split at h
    · exact List.subset_cons_of_subset i (segment_subset h)
    · cases h
      exact List.subset_cons_self i _
    · cases h

/-! ### Functions -/

/-- Legal code does what the code does that it stands for, along every run. -/
theorem execute_agrees {callees callees' : Callees} (hcallees : callees.Agree callees')
    (hcode : ∀ i ∈ code, i.IsLegalizable) : ∀ (n : Nat) (past : List Flow) {rest : List Instr} {m m' : State},
    rest ⊆ code → m.Agrees m' →
    (execute world callees code n past rest m).Agrees
      (execute world callees' (code.flatMap legalCode) n past (rest.flatMap legalCode) m')
  | 0, _, _, _, _, _, hm => ⟨rfl, rfl, hm⟩
  | n + 1, past, rest, m, m', hrest, hm => by
    -- Up to the next transfer of control both stay in `rest`, and then they go to the same point of `code`.
    have hsegment := segment_agrees world (fun i hi => hcode i (hrest hi)) hm
    rw [execute, execute]
    generalize hx : segment world m rest = x at hsegment
    generalize segment world m' (rest.flatMap legalCode) = y at hsegment
    cases hsegment with
    | error hm₁ => exact ⟨rfl, rfl, hm₁⟩
    | @ok flow m₁ m₁' behind hm₁ =>
      cases flow with
      | next | ret => exact ⟨rfl, rfl, hm₁⟩
      | goto l =>
        simp only [codeAfter_legalCode]
        cases htarget : codeAfter l code with
        | none => exact ⟨rfl, rfl, hm₁⟩
        | some target => exact execute_agrees hcallees hcode n _ (codeAfter_subset htarget) hm₁
      | call f =>
        have hcall := hcallees past f m₁ m₁' hm₁
        simp only
        generalize callees past f m₁ = u at hcall
        generalize callees' past f m₁' = u' at hcall
        cases hcall with
        | none => exact ⟨rfl, rfl, hm₁⟩
        | some hm₂ =>
          exact execute_agrees hcallees hcode n _ (List.Subset.trans (segment_subset hx) hrest) hm₂

/-- Making a function legal succeeds and keeps its meaning. -/
theorem Function.legalize_preserves (f : Function) (hf : ∀ i ∈ f.code, i.IsLegalizable) :
    ∃ f', f.legalize = .ok f' ∧ f'.name = f.name ∧ f'.isGlobal = f.isGlobal ∧
      ∀ (world : World) (callees callees' : Callees), callees.Agree callees' →
        ∀ m m' : State, m.Agrees m' → ∀ n : Nat,
          (execute world callees f.code n [] f.code m).Agrees (execute world callees' f'.code n [] f'.code m') := by
  refine ⟨{ f with code := f.code.flatMap legalCode }, ?_, rfl, rfl, ?_⟩
  · rw [Function.legalize, legalize_eq hf]
    rfl
  · intro world callees callees' hcallees m m' hm n
    exact execute_agrees hcallees hf n [] (List.Subset.refl _) hm

end Runs

/-- Every instruction up to the jump has to be split. -/
def tally : Function where
  name := "tally"
  isGlobal := true
  code :=
    [.mov .quad (.imm 5000000000) (.stack (-8)), .binary .mul .long (.imm 3) (.data "total"),
      .cmp .quad (.str "text") (.imm 0), .jcc .ne "end", .call "g", .label "end", .ret]

/-- A state with nothing but a value in `r10`. -/
def scratched (v : BitVec 64) : State := ⟨Function.update (fun _ => 0) .r10 v, none, fun _ => .long 0, fun _ => 0⟩

/-- The address of the text is not zero, so the jump is made. -/
theorem tally_preserves : ∃ f', tally.legalize = .ok f' ∧
    let world : World := ⟨fun _ => 16, fun _ => 0, fun _ _ s => (0, s)⟩
    let run := execute world (fun _ _ m => some m) f'.code 2 [] f'.code (scratched 1)
    run.past = [.ret, .goto "end"] ∧ run.ending = .left .ret := by
  obtain ⟨f', hf', -, -, hruns⟩ := Function.legalize_preserves tally (by decide)
  refine ⟨f', hf', ?_⟩
  have hstates : (scratched 0).Agrees (scratched 1) := by
    refine ⟨fun r h₁₀ _ => ?_, rfl, rfl, rfl⟩
    simp only [scratched, Function.update_of_ne h₁₀]
  have hrun := hruns ⟨fun _ => 16, fun _ => 0, fun _ _ s => (0, s)⟩ (fun _ _ m => some m) (fun _ _ m => some m)
    (fun _ _ _ _ hm => .some hm) _ _ hstates 2
  exact ⟨hrun.past.trans rfl, hrun.ending.trans rfl⟩

end Khel.Machine
