import Khel.Proofs.Machine.Words

/-!
# Selected code does what it stands for

The cells of the machine hold the variables of intermediate code. The code that is selected for an instruction leaves
them holding the variables after that instruction, and goes where the instruction goes.

* `Ir.Instr.IsConsistent`: the operands of an instruction fit together.
* `Machine.State.Holds`: the cells hold a store.
* `Machine.select_carries`: the code of a consistent instruction does what the instruction does.
-/

namespace Khel

/-! ## Consistent instructions -/

namespace Ir

/-- The operands fit together. The sources of arithmetic are read after the destination was written, if it is no
division, so the second of them must be another variable. -/
def Instr.IsConsistent (T : SymbolTable) : Instr → Prop
  | .ret v | .jumpIfZero v _ | .jumpIfNotZero v _ => ∃ t, v.HasTy T t
  | .signExtend src dst => src.HasTy T .int32 ∧ dst.IsVarOf T .int64
  | .truncate src dst => src.HasTy T .int64 ∧ dst.IsVarOf T .int32
  | .unary .logicalNot src dst => (∃ t, src.HasTy T t) ∧ dst.IsVarOf T .int32
  | .unary _ src dst | .copy src dst => ∃ t, src.HasTy T t ∧ dst.IsVarOf T t
  | .binary (.arith op) l r dst => (∃ t, l.HasTy T t ∧ r.HasTy T t ∧ dst.IsVarOf T t) ∧
    (op = .add ∨ op = .sub ∨ op = .mul → r ≠ dst)
  | .binary (.compare _) l r dst => (∃ t, l.HasTy T t ∧ r.HasTy T t) ∧ dst.IsVarOf T .int32
  | .jump _ | .label _ => True
  | .call .. => False

/-- The variable that an instruction writes. -/
def Instr.dst? : Instr → Option Value
  | .signExtend _ dst | .truncate _ dst | .unary _ _ dst | .binary _ _ _ dst | .copy _ dst | .call _ _ dst => some dst
  | .ret _ | .jump _ | .jumpIfZero .. | .jumpIfNotZero .. | .label _ => none

/-- A division that has no result. -/
def Instr.IsUndefined (world : World) (T : SymbolTable) (s : Store) : Instr → Prop
  | .binary (.arith op) l r dst => (op = .div ∨ op = .rem) ∧
    ∃ t, dst.ty? T = some t ∧ divisionFails t (l.read world s) (r.read world s) = true
  | _ => False

end Ir

/-- The width of a value of the type. -/
@[reducible] def Ty.width : Ty → Machine.Width
  | .int32 => .long
  | _ => .quad

theorem Ty.bits_width (t : Ty) : t.width.bits = t.bits := by
  cases t <;> rfl

theorem Machine.Width.ofTy_eq {t : Ty} (h : t.isFunction = false) : Width.ofTy t = .ok t.width := by
  cases t with
  | fn params ret => cases h
  | _ => rfl

namespace Machine

open Ir (Value)

theorem Width.ofValue_eq {T : Khel.SymbolTable} {t : Ty} {v : Value} (h : v.HasTy T t) :
    Width.ofValue T v = .ok t.width := by
  obtain ⟨ht, hf⟩ := h
  cases v with
  | var x =>
    obtain ⟨s, hs, rfl⟩ := Option.map_eq_some_iff.1 ht
    simp only [Width.ofValue, Width.ofVar, hs, Width.ofTy_eq hf]
  | _ =>
    cases ht
    rfl

/-! ## Cells -/

/-- The cells hold a store. -/
def State.Holds (m : State) (T : Khel.SymbolTable) (s : Store) : Prop :=
  ∀ x sym, T.get? x = some sym → sym.ty.isFunction = false →
    ∃ v : Word sym.ty.width, m.pseudo x = .of _ v ∧ v.toInt = s x

/-- The state after a word was written to a cell. -/
def State.put (m : State) (x : String) (w : Width) (v : Word w) : State :=
  { m with pseudo := Function.update m.pseudo x (.of w v) }

@[simp] theorem Cell.read_of {w : Width} (v : Word w) : (Cell.of w v).read w = some v := by
  cases w <;> rfl

@[simp] theorem Cell.write_of {w : Width} (v v' : Word w) : (Cell.of w v).write w v' = some (.of w v') := by
  cases w <;> rfl

/-- The low half of a cell of eight bytes. -/
theorem Cell.read_low {c : Cell} {v : Word .quad} (h : c.read .quad = some v) :
    c.read .long = some (v.setWidth 32) := by
  cases c with
  | long _ => cases h
  | quad _ =>
    cases h
    rfl

section Cells

variable {world : World} {T : Khel.SymbolTable} {s : Store} {m : State} {t : Ty} {x : String}

/-- The machine reads what the value is. -/
theorem State.Holds.read (world : World) (hm : m.Holds T s) {v : Value} (hv : v.HasTy T t) :
    ∃ b : Word t.width, m.read world t.width (.ofValue v) = some b ∧ b.toInt = v.read world s := by
  obtain ⟨ht, hf⟩ := hv
  cases v with
  | int c =>
    cases ht
    exact ⟨c.toBitVec, congrArg some (setWidth_signExtend c.toBitVec), rfl⟩
  | long c =>
    cases ht
    exact ⟨c.toBitVec, by simp [State.read, Operand.ofValue, Ty.width, Width.bits], rfl⟩
  | str text =>
    cases ht
    exact ⟨(world.text text).toBitVec, by simp [State.read, Operand.ofValue, Ty.width, Width.bits], rfl⟩
  | var x =>
    obtain ⟨sym, hs, rfl⟩ := Option.map_eq_some_iff.1 ht
    obtain ⟨b, hb, hv⟩ := hm x sym hs hf
    exact ⟨b, by simp [State.read, Operand.ofValue, hb], hv⟩

/-- A variable can be written. -/
theorem State.Holds.write (world : World) (hm : m.Holds T s) (hx : (Value.var x).HasTy T t) (b : Word t.width) :
    m.write world t.width b (.pseudo x) = some (m.put x t.width b) := by
  obtain ⟨ht, hf⟩ := hx
  obtain ⟨sym, hs, rfl⟩ := Option.map_eq_some_iff.1 ht
  obtain ⟨old, hold, _⟩ := hm x sym hs hf
  simp [State.write, State.put, hold]

/-- After a write, the cells hold the store with that variable replaced. -/
theorem State.Holds.put (hm : m.Holds T s) (hx : (Value.var x).HasTy T t) (b : Word t.width) :
    (m.put x t.width b).Holds T (Function.update s x b.toInt) := by
  intro y sym hs hf
  by_cases hxy : y = x
  · subst hxy
    have ht : sym.ty = t := by
      have := hx.1
      simp only [Value.ty?, hs, Option.map_some, Option.some.injEq] at this
      exact this
    subst ht
    exact ⟨b, by simp [State.put], by simp⟩
  · obtain ⟨v, hv, hvs⟩ := hm y sym hs hf
    exact ⟨v, by simp [State.put, hxy, hv], by simp [hxy, hvs]⟩

@[simp] theorem State.read_put {w : Width} (b : Word w) : (m.put x w b).read world w (.pseudo x) = some b := by
  simp [State.read, State.put]

/-- Another value is not changed by a write. -/
theorem State.read_put_of_ne {w w' : Width} (b : Word w) {v : Value} (h : v ≠ .var x) :
    (m.put x w b).read world w' (.ofValue v) = m.read world w' (.ofValue v) := by
  cases v with
  | var y =>
    have hy : y ≠ x := fun he => h (he ▸ rfl)
    simp [State.read, State.put, Operand.ofValue, hy]
  | _ => rfl

/-- The cells do not depend on registers and flags. -/
theorem State.Holds.congr (hm : m.Holds T s) {m' : State} (h : m'.pseudo = m.pseudo) : m'.Holds T s := by
  intro x sym hs hf
  rw [h]
  exact hm x sym hs hf

/-- Writing a whole register. -/
def State.putReg (m : State) (r : Register) (w : Width) (v : Word w) : State :=
  { m with reg := Function.update m.reg r (v.setWidth 64) }

@[simp] theorem State.pseudo_putReg (r : Register) (w : Width) (v : Word w) : (m.putReg r w v).pseudo = m.pseudo := rfl

@[simp] theorem State.reg_putReg (r : Register) (w : Width) (v : Word w) :
    ((m.putReg r w v).reg r).setWidth w.bits = v := by
  have h : w.bits ≤ 64 := by cases w <;> decide
  simp [State.putReg, BitVec.setWidth_setWidth_of_le _ h]

theorem State.reg_putReg_of_ne {r r' : Register} (h : r' ≠ r) (w : Width) (v : Word w) :
    (m.putReg r w v).reg r' = m.reg r' := by
  simp [State.putReg, h]

end Cells

/-! ## Blocks -/

/-- Apart from the variable `dst`, only `ax`, `dx` and the flags may have changed. -/
structure State.Keeps (m : State) (dst : Option Value) (m' : State) : Prop where
  reg : ∀ r, r ≠ .ax → r ≠ .dx → m'.reg r = m.reg r
  pseudo : ∀ x, dst ≠ some (.var x) → m'.pseudo x = m.pseudo x
  memory : m'.memory = m.memory

namespace State.Keeps

variable {m m' : State} {dst : Option Value}

theorem rfl : m.Keeps dst m := ⟨fun _ _ _ => Eq.refl _, fun _ _ => Eq.refl _, Eq.refl _⟩

theorem put {x : String} (h : m.Keeps (some (.var x)) m') (w : Width) (v : Word w) :
    m.Keeps (some (.var x)) (m'.put x w v) := by
  refine ⟨h.reg, fun y hy => ?_, h.memory⟩
  have hyx : y ≠ x := fun he => hy (he ▸ Eq.refl _)
  rw [State.put]
  simp only [Function.update_of_ne hyx]
  exact h.pseudo y hy

theorem putReg (h : m.Keeps dst m') {r : Register} (hr : r = .ax ∨ r = .dx) (w : Width) (v : Word w) :
    m.Keeps dst (m'.putReg r w v) := by
  refine ⟨fun r' ha hd => ?_, h.pseudo, h.memory⟩
  have hne : r' ≠ r := by
    rintro hr'
    subst hr'
    exact hr.elim ha hd
  rw [State.reg_putReg_of_ne hne]
  exact h.reg r' ha hd

theorem flags (h : m.Keeps dst m') (f : Option Flags) : m.Keeps dst { m' with flags := f } :=
  ⟨h.reg, h.pseudo, h.memory⟩

end State.Keeps

/-- Where the machine goes when intermediate code goes somewhere. -/
def Flow.ofIr : Ir.Flow → Flow
  | .next => .next
  | .goto target => .goto target
  | .ret _ => .ret

/-- Run from `m`, the code goes where `flow` says and leaves the cells holding `s`. -/
def Carries (world : World) (T : Khel.SymbolTable) (m : State) (dst : Option Value) (code : List Instr)
    (flow : Ir.Flow) (s : Store) : Prop :=
  ∃ m', run world m code = some (.ofIr flow, m') ∧ m'.Holds T s ∧ m.Keeps dst m'

section Blocks

variable {world : World} {T : Khel.SymbolTable} {s : Store} {m : State} {t : Ty} {x : String}

/-- A word is not wrapped. -/
theorem wrap_toInt (t : Ty) (b : Word t.width) : t.wrap b.toInt = b.toInt := by
  rw [Ty.wrap, ← t.bits_width, BitVec.toInt_bmod_cancel]

/-- A copy of a value of the same type. -/
theorem mov_carries (hm : m.Holds T s) {src : Value} (hs : src.HasTy T t) (hx : (Value.var x).HasTy T t) :
    Carries world T m (some (.var x)) [.mov t.width (.ofValue src) (.pseudo x)] .next
      (Function.update s x (t.wrap (src.read world s))) := by
  obtain ⟨b, hb, hv⟩ := hm.read world hs
  refine ⟨m.put x t.width b, ?_, ?_, State.Keeps.rfl.put _ _⟩
  · rw [run_next (exec_mov hb (hm.write world hx b))]
    rfl
  · rw [← hv, wrap_toInt]
    exact hm.put hx b

theorem signExtend_carries (hm : m.Holds T s) {src : Value} (hs : src.HasTy T .int32)
    (hx : (Value.var x).HasTy T .int64) :
    Carries world T m (some (.var x)) [.movsx (.ofValue src) (.pseudo x)] .next
      (Function.update s x (Ty.wrap .int64 (src.read world s))) := by
  obtain ⟨b, hb, hv⟩ := hm.read world hs
  let wide : Word (Ty.width .int64) := b.signExtend 64
  have hwide : wide.toInt = b.toInt := BitVec.toInt_signExtend_of_le (by decide)
  refine ⟨m.put x _ wide, ?_, ?_, State.Keeps.rfl.put _ _⟩
  · rw [run_next]
    · rfl
    · have hw := hm.write world hx wide
      simp [Instr.exec, hb, hw, wide]
  · rw [← hv, ← hwide, wrap_toInt]
    exact hm.put hx wide

/-- The low half of a value. -/
theorem State.Holds.readLow (world : World) (hm : m.Holds T s) {v : Value} (hv : v.HasTy T .int64) :
    ∃ b : Word .long, m.read world .long (.ofValue v) = some b ∧ b.toInt = Ty.wrap .int32 (v.read world s) := by
  obtain ⟨b, hb, hr⟩ := hm.read world hv
  refine ⟨b.setWidth 32, ?_, hr ▸ toInt_setWidth_low b⟩
  cases v with
  | var x => exact Cell.read_low hb
  | long c =>
    cases hb
    simp [State.read, Operand.ofValue]
  | int c => cases hv.1
  | str text => cases hv.1

theorem truncate_carries (hm : m.Holds T s) {src : Value} (hs : src.HasTy T .int64)
    (hx : (Value.var x).HasTy T .int32) :
    Carries world T m (some (.var x)) [.mov .long (.ofValue src) (.pseudo x)] .next
      (Function.update s x (Ty.wrap .int32 (src.read world s))) := by
  obtain ⟨b, hb, hv⟩ := hm.readLow world hs
  refine ⟨m.put x .long b, ?_, hv ▸ hm.put hx b, State.Keeps.rfl.put _ _⟩
  rw [run_next (exec_mov hb (hm.write world hx b))]
  rfl

theorem unary_carries (hm : m.Holds T s) {src : Value} (hs : src.HasTy T t) (hx : (Value.var x).HasTy T t)
    {op : UnaryOp} {op' : UnOp} (hop : ∀ b : Word t.width, (op'.apply b).toInt = op.apply t b.toInt) :
    Carries world T m (some (.var x)) [.mov t.width (.ofValue src) (.pseudo x), .unary op' t.width (.pseudo x)] .next
      (Function.update s x (op.apply t (src.read world s))) := by
  obtain ⟨b, hb, hv⟩ := hm.read world hs
  have hmid := hm.put hx b
  have hfin := hmid.put hx (op'.apply b)
  rw [Function.update_idem, hop, hv] at hfin
  have hkeep : m.Keeps (some (.var x)) ((m.put x t.width b).put x t.width (op'.apply b)) :=
    (State.Keeps.rfl.put _ _).put _ _
  refine ⟨if op' = .neg then { (m.put x t.width b).put x t.width (op'.apply b) with flags := none }
    else (m.put x t.width b).put x t.width (op'.apply b), ?_, ?_, ?_⟩
  · have h₁ := exec_mov hb (hm.write world hx b)
    have h₂ := exec_unary (State.read_put b) (hmid.write world hx (op'.apply b))
    rw [run_next h₁, run_next h₂]
    rfl
  · split
    · exact hfin.congr rfl
    · exact hfin
  · split
    · exact hkeep.flags none
    · exact hkeep

/-- Arithmetic whose second source is not the destination. -/
theorem binary_carries (hm : m.Holds T s) {l r : Value} (hl : l.HasTy T t) (hr : r.HasTy T t)
    (hx : (Value.var x).HasTy T t) (hne : r ≠ .var x) {op : BinOp} {f : Int → Int → Int}
    (hop : ∀ a b : Word t.width, (op.apply a b).toInt = t.wrap (f a.toInt b.toInt)) :
    Carries world T m (some (.var x))
      [.mov t.width (.ofValue l) (.pseudo x), .binary op t.width (.ofValue r) (.pseudo x)]
      .next (Function.update s x (t.wrap (f (l.read world s) (r.read world s)))) := by
  obtain ⟨a, ha, hva⟩ := hm.read world hl
  obtain ⟨b, hb, hvb⟩ := hm.read world hr
  have hmid := hm.put hx a
  have hfin := hmid.put hx (op.apply a b)
  rw [Function.update_idem, hop, hva, hvb] at hfin
  refine ⟨{ (m.put x t.width a).put x t.width (op.apply a b) with flags := none }, ?_, hfin.congr rfl,
    ((State.Keeps.rfl.put _ _).put _ _).flags none⟩
  have h₁ := exec_mov ha (hm.write world hx a)
  have h₂ := exec_binary (State.read_put a) ((State.read_put_of_ne a hne).trans hb) (hmid.write world hx (op.apply a b))
  rw [run_next h₁, run_next h₂]
  rfl

/-- A comparison that leaves one or zero. The flags survive the write that clears the cell. -/
theorem compare_carries (hm : m.Holds T s) {w : Width} {left right : Operand} {a b : Word w}
    (ha : m.read world w right = some a) (hb : m.read world w left = some b) (hx : (Value.var x).HasTy T .int32)
    (c : Cond) :
    Carries world T m (some (.var x)) [.cmp w left right, .mov .long (.imm 0) (.pseudo x), .setcc c (.pseudo x)] .next
      (Function.update s x (truth (c.holds (.ofSub a b)))) := by
  let m₁ : State := { m with flags := some (.ofSub a b) }
  have hm₁ : m₁.Holds T s := hm.congr rfl
  let bit : Word .long := if c.holds (.ofSub a b) then 1 else 0
  have hbit : bit.toInt = truth (c.holds (.ofSub a b)) := by
    simp only [bit, truth]
    split <;> rfl
  have hbyte : (Cell.of .long 0).writeByte (if c.holds (.ofSub a b) then 1 else 0) = .of .long bit := by
    simp only [bit]
    split <;> rfl
  have hwrite : (m₁.put x .long 0).writeByte world (if c.holds (.ofSub a b) then 1 else 0) (.pseudo x) =
      some (m₁.put x .long bit) := by
    simp only [State.writeByte, State.put, Function.update_self, Function.update_idem, hbyte]
  refine ⟨m₁.put x .long bit, ?_, hbit ▸ hm₁.put hx bit, (State.Keeps.rfl.flags _).put _ _⟩
  have h₁ := exec_cmp ha hb
  have h₂ : (Instr.mov .long (.imm 0) (.pseudo x)).exec world m₁ = _ := exec_mov rfl (hm₁.write world hx 0)
  have h₃ := exec_setcc rfl hwrite
  rw [run_next h₁, run_next h₂, run_next h₃]
  rfl

/-- A jump that depends on the comparison of a value with zero. -/
theorem jump_carries (hm : m.Holds T s) {test : Value} (ht : test.HasTy T t) (op : CompareOp) (target : String) :
    Carries world T m none [.cmp t.width (.imm 0) (.ofValue test), .jcc (.ofCompare op) target]
      (if op.holds (test.read world s) 0 then .goto target else .next) s := by
  obtain ⟨a, ha, hv⟩ := hm.read world ht
  have hzero : m.read world t.width (.imm 0) = some 0 := by simp [State.read]
  have hcond : (Cond.ofCompare op).holds (.ofSub a 0) = op.holds (test.read world s) 0 := by
    rw [Cond.holds_ofSub_zero, hv]
  refine ⟨{ m with flags := some (.ofSub a 0) }, ?_, hm.congr rfl, State.Keeps.rfl.flags _⟩
  rw [run_next (exec_cmp ha hzero)]
  simp only [run, Instr.exec, Option.bind_eq_bind, Option.bind_some, hcond]
  cases op.holds (test.read world s) 0 <;> rfl

theorem ret_carries (world : World) (hm : m.Holds T s) {v : Value} (hv : v.HasTy T t) :
    ∃ m', run world m [.mov t.width (.ofValue v) (.reg .ax), .ret] = some (.ret, m') ∧ m'.Holds T s ∧ m.Keeps none m' ∧
      ((m'.reg .ax).setWidth t.width.bits).toInt = v.read world s := by
  obtain ⟨b, hb, hr⟩ := hm.read world hv
  refine ⟨m.putReg .ax t.width b, ?_, hm.congr rfl, State.Keeps.rfl.putReg (.inl rfl) _ _, ?_⟩
  · rw [run_next (exec_mov hb rfl)]
    rfl
  · rw [State.reg_putReg, hr]

/-- Division, and the part of its result that is wanted. -/
theorem division_carries (hm : m.Holds T s) {l r : Value} (hl : l.HasTy T t) (hr : r.HasTy T t)
    (hx : (Value.var x).HasTy T t) (hdef : divisionFails t (l.read world s) (r.read world s) = false) {reg : Register}
    {f : Int → Int → Int} (hreg : reg = .ax ∧ f = Int.tdiv ∨ reg = .dx ∧ f = Int.tmod) :
    Carries world T m (some (.var x)) (divisionCode t.width reg (.ofValue l) (.ofValue r) (.pseudo x)) .next
      (Function.update s x (t.wrap (f (l.read world s) (r.read world s)))) := by
  obtain ⟨a, ha, hva⟩ := hm.read world hl
  obtain ⟨b, hb, hvb⟩ := hm.read world hr
  let m₁ := m.putReg .ax t.width a
  let m₂ := m₁.putReg .dx t.width (signBits a)
  let m₃ := (m₂.putReg .ax t.width (a.sdiv b)).putReg .dx t.width (a.srem b)
  let m₄ : State := { m₃ with flags := none }
  have hm₄ : m₄.Holds T s := hm.congr rfl
  have hdx : (m₂.reg .dx).setWidth t.width.bits = signBits a := State.reg_putReg ..
  have hax : (m₂.reg .ax).setWidth t.width.bits = a := by
    rw [State.reg_putReg_of_ne (by decide)]
    exact State.reg_putReg ..
  have hdiv : divide ((m₂.reg .dx).setWidth t.width.bits) ((m₂.reg .ax).setWidth t.width.bits) b =
      some (a.sdiv b, a.srem b) := by
    rw [hdx, hax, divide_signBits t.bits_width, hva, hvb, hdef]
    rfl
  have hb₂ : m₂.read world t.width (.ofValue r) = some b := by
    rw [← hb]
    cases r <;> rfl
  have h₁ : (Instr.mov t.width (.ofValue l) (.reg .ax)).exec world m = some (.next, m₁) := exec_mov ha rfl
  have h₂ : (Instr.cdq t.width).exec world m₁ = some (.next, m₂) := by
    have hax₁ : (m₁.reg .ax).setWidth t.width.bits = a := State.reg_putReg ..
    simp only [Instr.exec, hax₁]
    rfl
  have h₃ : (Instr.idiv t.width (.ofValue r)).exec world m₂ = some (.next, m₄) := exec_idiv hb₂ hdiv rfl rfl
  obtain ⟨c, hc, hcv⟩ : ∃ c : Word t.width, m₄.read world t.width (.reg reg) = some c ∧
      c.toInt = t.wrap (f (l.read world s) (r.read world s)) := by
    rw [← hva, ← hvb, Ty.wrap, ← t.bits_width]
    rcases hreg with ⟨rfl, rfl⟩ | ⟨rfl, rfl⟩
    · refine ⟨a.sdiv b, congrArg some ?_, BitVec.toInt_sdiv a b⟩
      change (m₃.reg .ax).setWidth t.width.bits = _
      rw [State.reg_putReg_of_ne (by decide)]
      exact State.reg_putReg ..
    · refine ⟨a.srem b, congrArg some (State.reg_putReg ..), ?_⟩
      rw [← BitVec.toInt_srem, BitVec.toInt_bmod_cancel]
  refine ⟨m₄.put x t.width c, ?_, hcv ▸ hm₄.put hx c, ?_⟩
  · rw [divisionCode, run_next h₁, run_next h₂, run_next h₃, run_next (exec_mov hc (hm₄.write world hx c))]
    rfl
  · have hkeep₁ : m.Keeps (some (.var x)) m₁ := State.Keeps.rfl.putReg (.inl rfl) t.width a
    have hkeep₃ := (hkeep₁.putReg (.inr rfl) t.width (signBits a)).putReg (.inl rfl) t.width (a.sdiv b)
    exact ((hkeep₃.putReg (.inr rfl) t.width (a.srem b)).flags none).put t.width c

end Blocks

/-! ## Selection -/

/-- In the state `m`, which holds `s`, the code does what the instruction does. -/
structure Implements (world : World) (T : Khel.SymbolTable) (s : Store) (m : State) (i : Ir.Instr) (code : List Instr) :
    Prop where
  defined : ∀ flow s', i.exec world T s = some (flow, s') →
    ∃ m', run world m code = some (.ofIr flow, m') ∧ m'.Holds T s' ∧ m.Keeps i.dst? m' ∧
      -- A result stands in `ax`.
      ∀ v t, i = .ret v → v.HasTy T t → ((m'.reg .ax).setWidth t.width.bits).toInt = v.read world s
  undefined : i.exec world T s = none → i.IsUndefined world T s

section Selection

variable {world : World} {T : Khel.SymbolTable} {s : Store} {m : State} {t : Ty} {x : String}

theorem Implements.of_carries {i : Ir.Instr} {flow : Ir.Flow} {s' : Store} {code : List Instr}
    (hc : Carries world T m i.dst? code flow s') (hexec : i.exec world T s = some (flow, s')) (hret : ∀ v, i ≠ .ret v) :
    Implements world T s m i code := by
  constructor
  · intro flow' s'' h
    obtain ⟨rfl, rfl⟩ : flow = flow' ∧ s' = s'' := by simpa [hexec] using h
    obtain ⟨m', hrun, hholds, hkeeps⟩ := hc
    exact ⟨m', hrun, hholds, hkeeps, fun v _ hv => absurd hv (hret v)⟩
  · intro h
    rw [hexec] at h
    cases h

theorem selectUnary_implements {op : UnaryOp} {src : Value} (hm : m.Holds T s)
    (hi : (Ir.Instr.unary op src (.var x)).IsConsistent T) :
    ∃ code, selectUnary T op src (.var x) = .ok code ∧ Implements world T s m (.unary op src (.var x)) code := by
  cases op with
  | negate =>
    obtain ⟨t, hs, hx, _⟩ := hi
    have hop : ∀ b : Word t.width, (UnOp.apply .neg b).toInt = UnaryOp.negate.apply t b.toInt := by
      intro b
      rw [UnaryOp.apply, Ty.wrap, ← t.bits_width]
      exact BitVec.toInt_neg
    refine ⟨_, by rw [selectUnary, Width.ofValue_eq hs, Width.ofValue_eq hx]; rfl, ?_⟩
    refine .of_carries (unary_carries hm hs hx hop) ?_ (fun _ => nofun)
    simp [Ir.Instr.exec, hx.1, Value.write]
  | complement =>
    obtain ⟨t, hs, hx, _⟩ := hi
    have hop : ∀ b : Word t.width, (UnOp.apply .not b).toInt = UnaryOp.complement.apply t b.toInt := by
      intro b
      rw [UnaryOp.apply, Ty.wrap, ← t.bits_width]
      exact toInt_complement b
    refine ⟨_, by rw [selectUnary, Width.ofValue_eq hs, Width.ofValue_eq hx]; rfl, ?_⟩
    refine .of_carries (unary_carries hm hs hx hop) ?_ (fun _ => nofun)
    simp [Ir.Instr.exec, hx.1, Value.write]
  | logicalNot =>
    obtain ⟨⟨t, hs⟩, hx, _⟩ := hi
    obtain ⟨a, ha, hv⟩ := hm.read world hs
    have hzero : m.read world t.width (.imm 0) = some 0 := by simp [State.read]
    have hcond : Cond.e.holds (.ofSub a 0) = decide (src.read world s = 0) := hv ▸ Cond.holds_ofSub_zero .eq a
    refine ⟨_, by rw [selectUnary, Width.ofValue_eq hs, Width.ofValue_eq hx]; rfl, ?_⟩
    refine .of_carries (compare_carries hm ha hzero hx .e) ?_ (fun _ => nofun)
    simp only [Ir.Instr.exec, hx.1, Value.write, UnaryOp.apply, hcond]
    rfl

theorem arith_implements {op : ArithOp} {l r : Value} (hm : m.Holds T s) (hl : l.HasTy T t) (hr : r.HasTy T t)
    (hx : (Value.var x).HasTy T t) (hne : r ≠ .var x) {op' : BinOp} {f : Int → Int → Int}
    (hop : ∀ a b, op.apply t a b = some (t.wrap (f a b)))
    (hop' : ∀ a b : Word t.width, (op'.apply a b).toInt = (f a.toInt b.toInt).bmod (2 ^ t.width.bits)) :
    Implements world T s m (.binary (.arith op) l r (.var x))
      [.mov t.width (.ofValue l) (.pseudo x), .binary op' t.width (.ofValue r) (.pseudo x)] := by
  have hword : ∀ a b : Word t.width, (op'.apply a b).toInt = t.wrap (f a.toInt b.toInt) := by
    intro a b
    rw [Ty.wrap, ← t.bits_width, hop']
  refine .of_carries (binary_carries hm hl hr hx hne hword) ?_ (fun _ => nofun)
  simp [Ir.Instr.exec, hx.1, Value.write, StrictOp.apply, hop]

theorem division_implements {op : ArithOp} {l r : Value} (hm : m.Holds T s) (hl : l.HasTy T t) (hr : r.HasTy T t)
    (hx : (Value.var x).HasTy T t) {reg : Register} {f : Int → Int → Int}
    (hreg : op = .div ∧ reg = .ax ∧ f = Int.tdiv ∨ op = .rem ∧ reg = .dx ∧ f = Int.tmod) :
    Implements world T s m (.binary (.arith op) l r (.var x))
      (divisionCode t.width reg (.ofValue l) (.ofValue r) (.pseudo x)) := by
  have hop : op.apply t (l.read world s) (r.read world s) =
      if divisionFails t (l.read world s) (r.read world s) then none
      else some (t.wrap (f (l.read world s) (r.read world s))) := by
    rcases hreg with ⟨rfl, _, rfl⟩ | ⟨rfl, _, rfl⟩ <;> rfl
  cases hdef : divisionFails t (l.read world s) (r.read world s) with
  | false =>
    have hreg' : reg = .ax ∧ f = Int.tdiv ∨ reg = .dx ∧ f = Int.tmod := hreg.imp And.right And.right
    refine .of_carries (division_carries hm hl hr hx hdef hreg') ?_ (fun _ => nofun)
    simp [Ir.Instr.exec, hx.1, Value.write, StrictOp.apply, hop, hdef]
  | true =>
    have hnone : (Ir.Instr.binary (.arith op) l r (.var x)).exec world T s = none := by
      simp [Ir.Instr.exec, hx.1, StrictOp.apply, hop, hdef]
    refine ⟨fun flow s' h => ?_, fun _ => ⟨hreg.imp And.left And.left, t, hx.1, hdef⟩⟩
    rw [hnone] at h
    cases h

theorem selectBinary_implements {op : StrictOp} {l r : Value} (hm : m.Holds T s)
    (hi : (Ir.Instr.binary op l r (.var x)).IsConsistent T) :
    ∃ code, selectBinary T op l r (.var x) = .ok code ∧ Implements world T s m (.binary op l r (.var x)) code := by
  cases op with
  | compare op =>
    obtain ⟨⟨t, hl, hr⟩, hx, _⟩ := hi
    obtain ⟨a, ha, hva⟩ := hm.read world hl
    obtain ⟨b, hb, hvb⟩ := hm.read world hr
    refine ⟨_, by rw [selectBinary, Width.ofValue_eq hl, Width.ofValue_eq hx]; rfl, ?_⟩
    refine .of_carries (compare_carries hm ha hb hx (.ofCompare op)) ?_ (fun _ => nofun)
    simp [Ir.Instr.exec, hx.1, Value.write, StrictOp.apply, Cond.holds_ofSub, hva, hvb]
  | arith op =>
    obtain ⟨⟨t, hl, hr, hx, _⟩, hne⟩ := hi
    cases op with
    | add =>
      refine ⟨_, by rw [selectBinary, Width.ofValue_eq hl]; rfl, ?_⟩
      exact arith_implements hm hl hr hx (hne (.inl rfl)) (fun _ _ => rfl) BitVec.toInt_add
    | sub =>
      refine ⟨_, by rw [selectBinary, Width.ofValue_eq hl]; rfl, ?_⟩
      exact arith_implements hm hl hr hx (hne (.inr (.inl rfl))) (fun _ _ => rfl) fun _ _ => BitVec.toInt_sub
    | mul =>
      refine ⟨_, by rw [selectBinary, Width.ofValue_eq hl]; rfl, ?_⟩
      exact arith_implements hm hl hr hx (hne (.inr (.inr rfl))) (fun _ _ => rfl) BitVec.toInt_mul
    | div =>
      refine ⟨_, by rw [selectBinary, Width.ofValue_eq hl]; rfl, ?_⟩
      exact division_implements hm hl hr hx (.inl ⟨rfl, rfl, rfl⟩)
    | rem =>
      refine ⟨_, by rw [selectBinary, Width.ofValue_eq hl]; rfl, ?_⟩
      exact division_implements hm hl hr hx (.inr ⟨rfl, rfl, rfl⟩)

/-- Selection succeeds on a consistent instruction, and its code does what the instruction does in every state that
holds a store. -/
theorem select_implements (world : World) (T : Khel.SymbolTable) (i : Ir.Instr) (hi : i.IsConsistent T) (s : Store)
    (m : State) (hm : m.Holds T s) : ∃ code, select T i = .ok code ∧ Implements world T s m i code := by
  cases i with
  | ret v =>
    obtain ⟨t, hv⟩ := hi
    obtain ⟨m', hrun, hholds, hkeeps, hax⟩ := ret_carries world hm hv
    refine ⟨_, by rw [select, Width.ofValue_eq hv]; rfl, fun flow s' h => ?_, nofun⟩
    obtain ⟨rfl, rfl⟩ : Ir.Flow.ret (v.read world s) = flow ∧ s = s' := by simpa [Ir.Instr.exec] using h
    refine ⟨m', hrun, hholds, hkeeps, fun v' t' he ht' => ?_⟩
    cases he
    obtain rfl : t = t' := Option.some.inj (hv.1.symm.trans ht'.1)
    exact hax
  | signExtend src dst =>
    obtain ⟨hs, hx, x, rfl⟩ := hi
    refine ⟨_, rfl, .of_carries (signExtend_carries hm hs hx) ?_ (fun _ => nofun)⟩
    simp [Ir.Instr.exec, hx.1, Value.write]
  | truncate src dst =>
    obtain ⟨hs, hx, x, rfl⟩ := hi
    refine ⟨_, rfl, .of_carries (truncate_carries hm hs hx) ?_ (fun _ => nofun)⟩
    simp [Ir.Instr.exec, hx.1, Value.write]
  | copy src dst =>
    obtain ⟨t, hs, hx, x, rfl⟩ := hi
    refine ⟨_, by rw [select, Width.ofValue_eq hx]; rfl, .of_carries (mov_carries hm hs hx) ?_ (fun _ => nofun)⟩
    simp [Ir.Instr.exec, hx.1, Value.write]
  | unary op src dst =>
    obtain ⟨x, rfl⟩ : ∃ x, dst = .var x := by
      cases op with
      | logicalNot => exact hi.2.2
      | negate | complement =>
        obtain ⟨_, _, _, hx⟩ := hi
        exact hx
    exact selectUnary_implements hm hi
  | binary op l r dst =>
    obtain ⟨x, rfl⟩ : ∃ x, dst = .var x := by
      cases op with
      | compare _ => exact hi.2.2
      | arith _ =>
        obtain ⟨⟨_, _, _, _, hx⟩, _⟩ := hi
        exact hx
    exact selectBinary_implements hm hi
  | jump target =>
    exact ⟨_, rfl, .of_carries ⟨m, rfl, hm, .rfl⟩ rfl (fun _ => nofun)⟩
  | label id =>
    exact ⟨_, rfl, .of_carries ⟨m, rfl, hm, .rfl⟩ rfl (fun _ => nofun)⟩
  | jumpIfZero test target =>
    obtain ⟨t, ht⟩ := hi
    refine ⟨_, by rw [select, selectJump, Width.ofValue_eq ht]; rfl, ?_⟩
    refine .of_carries (jump_carries hm ht .eq target) ?_ (fun _ => nofun)
    simp [Ir.Instr.exec, CompareOp.holds_eq]
  | jumpIfNotZero test target =>
    obtain ⟨t, ht⟩ := hi
    refine ⟨_, by rw [select, selectJump, Width.ofValue_eq ht]; rfl, ?_⟩
    refine .of_carries (jump_carries hm ht .ne target) ?_ (fun _ => nofun)
    simp [Ir.Instr.exec, CompareOp.holds]
  | call f args dst => exact hi.elim

end Selection

/-- Two narrow variables. -/
def quotientSymbols : Khel.SymbolTable := ⟨[("x", ⟨.int32, .automatic⟩), ("y", ⟨.int32, .automatic⟩)]⟩

/-- A state in which both hold minus seven. -/
def quotientState : State := ⟨fun _ => 0, none, fun _ => .long (-7), fun _ => 0⟩

theorem quotientState_holds : quotientState.Holds quotientSymbols fun _ => -7 := by
  intro x sym hs _
  have hty : sym = ⟨.int32, .automatic⟩ := by
    simp only [quotientSymbols, Table.get?, Table.findEntry?] at hs
    split at hs
    · exact (Option.some.inj hs).symm
    · split at hs
      · exact (Option.some.inj hs).symm
      · cases hs
  subst hty
  exact ⟨-7, rfl, rfl⟩

theorem quotient_isConsistent :
    (Ir.Instr.binary (.arith .div) (.var "x") (.int 2) (.var "y")).IsConsistent quotientSymbols :=
  ⟨⟨.int32, ⟨rfl, rfl⟩, ⟨rfl, rfl⟩, ⟨rfl, rfl⟩, "y", rfl⟩, fun _ => nofun⟩

/-- The quotient of minus seven and two is computed. -/
theorem quotient_implements : ∃ code,
    select quotientSymbols (.binary (.arith .div) (.var "x") (.int 2) (.var "y")) = .ok code ∧
      Implements ⟨fun _ => 0, fun _ => 0, fun _ _ s => (0, s)⟩ quotientSymbols (fun _ => -7) quotientState
        (.binary (.arith .div) (.var "x") (.int 2) (.var "y")) code :=
  select_implements _ _ _ quotient_isConsistent _ _ quotientState_holds

end Machine

end Khel
