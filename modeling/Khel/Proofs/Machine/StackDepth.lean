import Khel.Proofs.Machine.Narrow
import Khel.Proofs.Machine.StackLevels

/-!
# The stack along a function

The code of every instruction of intermediate code leaves the stack where it found it, also after slots were assigned
and the code was made legal: only a call moves the stack pointer, and it takes back what it pushed. So every function
keeps the stack.

* `Machine.Levels`: finished code that takes the stack from one level to another.
* `Machine.selectCall_levels`: a call starts and ends at the frame, and is made with the stack aligned.
* `Machine.Parts.KeepsStack`: what this means for the stack along the paths of a function.
* `Machine.Program.finish_keepsStack`: every function that comes through all stages keeps the stack.
-/

namespace Khel.Machine

/-! ## Finished code -/

/-- Whatever the scratch register holds. -/
def Balanced (excess : Nat) (code : List Instr) : Prop := ∀ s, Levelled s excess code

section Finish

variable {M : SymbolTable} {frame : Frame} {e : Nat} {i : Instr} {a b rest : List Instr}

theorem Instr.isQuiet_relocate (h : i.isQuiet = true) : (i.relocate (frame.placeOf M)).isQuiet = true := by
  have hdst : ∀ dst : Operand, (dst ≠ .reg .sp && dst ≠ .reg .bp) = true →
      (frame.placeOf M dst ≠ .reg .sp && frame.placeOf M dst ≠ .reg .bp) = true := by
    intro dst hdst
    simp only [ne_eq, decide_not, Bool.and_eq_true, Bool.not_eq_true', decide_eq_false_iff_not] at hdst ⊢
    exact ⟨mt Frame.placeOf_eq_reg hdst.1, mt Frame.placeOf_eq_reg hdst.2⟩
  cases i with
  | mov _ _ dst | movsx _ dst | unary _ _ dst | binary _ _ _ dst | setcc _ dst => exact hdst dst h
  | cmp _ _ _ | idiv _ _ | cdq _ => rfl
  | _ => cases h

theorem splitMemory_quiet (h : i.isQuiet = true) : ∀ j ∈ splitMemory i, j.isQuiet = true := by
  cases i <;> grind [splitMemory, Instr.isQuiet, srcScratch]

theorem legalOperands_quiet (h : i.isQuiet = true) : ∀ j ∈ legalOperands i, j.isQuiet = true := by
  cases i <;> grind [legalOperands, legalMov.eq_def, legalMovsx, legalCmp, legalPush, legalIdiv, legalBinary,
    viaRegister, Instr.isQuiet, srcScratch, dstScratch]

theorem loadTexts_quiet (h : i.isQuiet = true) :
    (∀ j ∈ (loadTexts i).1, j.isQuiet = true) ∧ (loadTexts i).2.isQuiet = true := by
  cases i <;> grind [loadTexts, loadText_eq, viaRegister, Instr.isQuiet, srcScratch, dstScratch]

/-- What only computes still only computes when it was made legal. -/
theorem legalCode_quiet (h : i.isQuiet = true) : ∀ j ∈ legalCode i, j.isQuiet = true := by
  intro j hj
  obtain ⟨k, hk, hj⟩ := List.mem_flatMap.1 hj
  obtain ⟨hloads, hrest⟩ := loadTexts_quiet h
  refine splitMemory_quiet ?_ j hj
  rcases List.mem_append.1 hk with hk | hk
  · exact hloads k hk
  · exact legalOperands_quiet hrest k hk

theorem Balanced.quiet (h : Balanced e rest) : ∀ {a : List Instr}, (∀ j ∈ a, j.isQuiet = true) → Balanced e (a ++ rest)
  | [], _ => h
  | _ :: _, ha => fun _ =>
    let ⟨hi, ha⟩ := List.forall_mem_cons.1 ha
    .quiet hi (h.quiet ha)

theorem legalCode_adjust (op : BinOp) (n : Nat) :
    legalCode (.binary op .quad (.imm (Int64.ofNat n)) (.reg .sp)) =
        [.binary op .quad (.imm (Int64.ofNat n)) (.reg .sp)] ∨
      legalCode (.binary op .quad (.imm (Int64.ofNat n)) (.reg .sp)) =
        [.mov .quad (.imm (Int64.ofNat n)) srcScratch, .binary op .quad srcScratch (.reg .sp)] := by
  cases h : (Operand.imm (Int64.ofNat n)).isLargeImm with
  | false | true =>
    simp [legalCode, loadTexts, loadText, legalOperands, legalBinary, viaRegister, h, splitMemory, Operand.isReg]

theorem Balanced.lower {n : Nat} (h : Balanced (e + n) rest) (hlt : e + n < 2 ^ 63) :
    Balanced e (legalCode (.binary .sub .quad (.imm (Int64.ofNat n)) (.reg .sp)) ++ rest) := by
  intro s
  rcases legalCode_adjust .sub n with hcode | hcode
  · rw [hcode]
    exact .lower (.inl rfl) hlt h
  · rw [hcode]
    exact .load (.lower (.inr ⟨rfl, by simp⟩) hlt h)

theorem Balanced.raise {n : Nat} (h : Balanced e rest) (hlt : e + n < 2 ^ 63) :
    Balanced (e + n) (legalCode (.binary .add .quad (.imm (Int64.ofNat n)) (.reg .sp)) ++ rest) := by
  intro s
  rcases legalCode_adjust .add n with hcode | hcode
  · rw [hcode]
    exact .raise (.inl rfl) hlt h
  · rw [hcode]
    exact .load (.raise (.inr ⟨rfl, by simp⟩) hlt h)

theorem Balanced.push {o : Operand} (h : Balanced (e + 8) rest) (ho : o.isPseudo = false) (hlt : e + 8 < 2 ^ 63) :
    Balanced e (legalCode (.push o) ++ rest) := by
  rcases e₁ : viaRegister o.isLargeImm .quad srcScratch o with ⟨load, o₁⟩
  have hload : (∀ j ∈ load, j.isQuiet = true) ∧ o₁.isPseudo = false := by
    cases hlarge : o.isLargeImm <;> rw [hlarge] at e₁ <;> cases e₁
    · exact ⟨by simp, ho⟩
    · exact ⟨by simp [Instr.isQuiet, srcScratch], rfl⟩
  rw [legalCode_push e₁, List.append_assoc]
  exact Balanced.quiet (fun s => .push hload.2 hlt h) hload.1

end Finish

/-! ## Selected code -/

open Ir (Value)

/-- What it finds on the stack lies above the frame: these are parameters. -/
def Instr.AboveFrame (i : Instr) : Prop := ∀ offset, .stack offset ∈ i.operands → 0 ≤ offset

/-- It only computes, or joins or parts control. -/
def Instr.IsPlain (i : Instr) : Prop := (i.isQuiet = true ∨ i.isTurn = true) ∧ i.AboveFrame

/-- Placed in a frame and made legal, the code takes the stack from one level to another. -/
def Levels (M : SymbolTable) (code : List Instr) (excess excess' : Nat) : Prop :=
  ∀ frame : Frame, Placed (code.map (Instr.relocate (frame.placeOf M))) → ∀ rest, Balanced excess' rest →
    Balanced excess (frame.finish M code ++ rest)

section Selected

variable {T : Khel.SymbolTable} {M : SymbolTable} {a b : List Instr} {i : Instr} {e e' e'' : Nat}

theorem Levels.append (ha : Levels M a e e') (hb : Levels M b e' e'') : Levels M (a ++ b) e e'' := by
  intro frame hplaced rest hrest
  rw [List.map_append, Placed, codeVarsIn_append] at hplaced
  rw [Frame.finish_append, List.append_assoc]
  exact ha frame hplaced.1 _ (hb frame hplaced.2 rest hrest)

theorem Levels.quiet (h : ∀ i ∈ a, i.isQuiet = true) : Levels M a e e := by
  intro frame _ rest hrest
  refine hrest.quiet fun j hj => ?_
  obtain ⟨i', hi', hj⟩ := List.mem_flatMap.1 hj
  obtain ⟨i, hi, rfl⟩ := List.mem_map.1 hi'
  exact legalCode_quiet (Instr.isQuiet_relocate (h i hi)) j hj

theorem Levels.turn (h : i.isTurn = true) : Levels M [i] 0 0 := by
  intro frame _ rest hrest
  have hcode : frame.finish M [i] = [i] := by
    cases i with
    | label _ | jmp _ | jcc _ _ | ret => rfl
    | _ => cases h
  rw [hcode]
  exact fun _ => .turn h hrest

theorem Levels.plain : ∀ {a : List Instr}, (∀ i ∈ a, i.IsPlain) → Levels M a 0 0
  | [], _ => fun _ _ _ hrest => hrest
  | i :: a, h => by
    obtain ⟨⟨hi, _⟩, ha⟩ := List.forall_mem_cons.1 h
    refine Levels.append (a := [i]) ?_ (Levels.plain ha)
    rcases hi with hq | ht
    · exact Levels.quiet (by simpa using hq)
    · exact Levels.turn ht

theorem Levels.call {f : String} (h : 16 ∣ e) : Levels M [.call f] e e := by
  intro frame _ rest hrest s
  exact .call h hrest

theorem Levels.push {o : Operand} (hlt : e + 8 < 2 ^ 63) : Levels M [.push o] e (e + 8) := by
  intro frame hplaced rest hrest
  have ho : (frame.placeOf M o).isPseudo = false := by
    have hvars := hplaced (.push (frame.placeOf M o)) (by simp [Instr.relocate, Instr.mapOperands]) (frame.placeOf M o)
      (by simp [Instr.operands])
    cases h : frame.placeOf M o with
    | pseudo x => exact (hvars x h).elim
    | _ => rfl
  rw [Frame.finish_cons, Frame.finish_nil, List.append_nil]
  exact hrest.push ho hlt

theorem Levels.lower {n : Nat} (hlt : e + n < 2 ^ 63) : Levels M (adjustStack .sub n) e (e + n) := by
  intro frame _ rest hrest
  unfold adjustStack
  split
  · next hn =>
    subst hn
    exact hrest
  · rw [Frame.finish_cons, Frame.finish_nil, List.append_nil]
    exact hrest.lower hlt

theorem Levels.raise {n : Nat} (hlt : e + n < 2 ^ 63) : Levels M (adjustStack .add n) (e + n) e := by
  intro frame _ rest hrest
  unfold adjustStack
  split
  · next hn =>
    subst hn
    exact hrest
  · rw [Frame.finish_cons, Frame.finish_nil, List.append_nil]
    exact hrest.raise hlt

theorem Width.ofValue_any (v : Value) : Yields (Width.ofValue T v) (fun _ => True) fun _ => True :=
  .of_forall fun _ _ => trivial

@[simp] theorem Operand.ofValue_ne_reg (v : Value) (r : Register) : Operand.ofValue v ≠ .reg r := by
  cases v <;> simp [Operand.ofValue]

@[simp] theorem Operand.stack_ne_ofValue (offset : Int) (v : Value) : Operand.stack offset ≠ .ofValue v := by
  cases v <;> simp [Operand.ofValue]

theorem selectUnary_plain (op : UnaryOp) (src dst : Value) :
    Yields (selectUnary T op src dst) (fun _ => True) fun code => ∀ i ∈ code, i.IsPlain := by
  unfold selectUnary
  refine .bind (Width.ofValue_any src) fun w _ => .bind (Width.ofValue_any dst) fun w' _ => ?_
  cases op <;>
    exact .pure (by simp [compareCode, Instr.IsPlain, Instr.AboveFrame, Instr.isQuiet, Instr.operands])

theorem selectBinary_plain (op : StrictOp) (l r dst : Value) :
    Yields (selectBinary T op l r dst) (fun _ => True) fun code => ∀ i ∈ code, i.IsPlain := by
  unfold selectBinary
  refine .bind (Width.ofValue_any l) fun w _ => ?_
  cases op with
  | arith op =>
    cases op <;>
      exact .pure (by simp [divisionCode, Instr.IsPlain, Instr.AboveFrame, Instr.isQuiet, Instr.operands])
  | compare op =>
    refine .bind (Width.ofValue_any dst) fun w' _ => .pure ?_
    simp [compareCode, Instr.IsPlain, Instr.AboveFrame, Instr.isQuiet, Instr.operands]

theorem selectJump_plain (c : Cond) (test : Value) (target : String) :
    Yields (selectJump T c test target) (fun _ => True) fun code => ∀ i ∈ code, i.IsPlain :=
  .bind (Width.ofValue_any test) fun w _ =>
    .pure (by simp [Instr.IsPlain, Instr.AboveFrame, Instr.isQuiet, Instr.isTurn, Instr.operands])

/-- Only a call moves the stack pointer. -/
theorem select_plain : ∀ {i : Ir.Instr}, i.callee? = none →
    Yields (select T i) (fun _ => True) fun code => ∀ j ∈ code, j.IsPlain
  | .ret v, _ => .bind (Width.ofValue_any v) fun w _ =>
    .pure (by simp [Instr.IsPlain, Instr.AboveFrame, Instr.isQuiet, Instr.isTurn, Instr.operands])
  | .copy src dst, _ => .bind (Width.ofValue_any dst) fun w _ =>
    .pure (by simp [Instr.IsPlain, Instr.AboveFrame, Instr.isQuiet, Instr.operands])
  | .signExtend _ _, _ | .truncate _ _, _ | .jump _, _ | .label _, _ =>
    .pure (by simp [Instr.IsPlain, Instr.AboveFrame, Instr.isQuiet, Instr.isTurn, Instr.operands])
  | .unary op src dst, _ => selectUnary_plain op src dst
  | .binary op l r dst, _ => selectBinary_plain op l r dst
  | .jumpIfZero test target, _ | .jumpIfNotZero test target, _ => selectJump_plain _ test target

/-! ### Calls -/

/-- A move from or to the place of a parameter. -/
theorem selectParams_plain : ∀ (index : Nat) (xs : List String),
    Yields (selectParams T index xs) (fun _ => True) fun code => ∀ i ∈ code, i.isQuiet = true ∧ i.AboveFrame
  | _, [] => .pure (by simp)
  | index, x :: xs => by
    refine .bind (.of_forall fun _ _ => trivial : Yields (Width.ofVar T x) (fun _ => True) fun _ => True) fun w _ => ?_
    refine .bind (selectParams_plain (index + 1) xs) fun code hcode => .pure (List.forall_mem_cons.2 ⟨⟨rfl, ?_⟩, hcode⟩)
    intro offset ho
    simp only [Instr.operands, List.mem_cons, reduceCtorEq, List.not_mem_nil, or_false] at ho
    exact Operand.ofParam_nonneg ho.symm

theorem selectRegisterArgs_plain : ∀ (index : Nat) (vs : List Value),
    Yields (selectRegisterArgs T index vs) (fun _ => True) fun code => ∀ i ∈ code, i.isQuiet = true ∧ i.AboveFrame
  | _, [] => .pure (by simp)
  | index, v :: vs => by
    refine .bind (Width.ofValue_any v) fun w _ => ?_
    refine .bind (selectRegisterArgs_plain (index + 1) vs) fun code hcode =>
      .pure (List.forall_mem_cons.2 ⟨⟨?_, fun offset ho => ?_⟩, hcode⟩)
    · simp [Instr.isQuiet, Operand.ofParam_ne_reg]
    · simp only [Instr.operands, List.mem_cons, Operand.stack_ne_ofValue, List.not_mem_nil, or_false, false_or] at ho
      exact Operand.ofParam_nonneg ho.symm

/-- Every argument on the stack takes eight bytes. -/
theorem selectPush_levels (v : Value) : Yields (selectPush T v) (fun _ => True) fun code =>
    (∀ i ∈ code, i.AboveFrame) ∧ ∀ e, e + 8 < 2 ^ 63 → Levels M code e (e + 8) := by
  unfold selectPush
  refine .bind (Width.ofValue_any v) fun w _ => ?_
  split
  · exact .pure ⟨by simp [Instr.AboveFrame, Instr.operands], fun e he => .push he⟩
  · exact .pure ⟨by simp [Instr.AboveFrame, Instr.operands], fun e he => .push he⟩
  · exact .pure ⟨by simp [Instr.AboveFrame, Instr.operands], fun e he => .push he⟩
  · refine .pure ⟨by simp [Instr.AboveFrame, Instr.operands], fun e he => ?_⟩
    exact Levels.append (a := [_]) (.quiet (by simp [Instr.isQuiet])) (.push he)

theorem selectPushes_levels : ∀ vs : List Value, Yields (selectPushes T vs) (fun _ => True) fun code =>
    (∀ i ∈ code, i.AboveFrame) ∧ ∀ e, e + 8 * vs.length < 2 ^ 63 → Levels M code e (e + 8 * vs.length)
  | [] => .pure ⟨by simp, fun _ _ => .quiet (by simp)⟩
  | v :: vs => by
    refine .bind (selectPush_levels (M := M) v) fun push ⟨hpush, hlevel⟩ => ?_
    refine .bind (selectPushes_levels vs) fun pushes ⟨hpushes, hlevels⟩ => .pure ⟨?_, fun e he => ?_⟩
    · exact List.forall_mem_append.2 ⟨hpush, hpushes⟩
    · rw [List.length_cons] at he ⊢
      have hrest := hlevels (e + 8) (by omega)
      rw [show e + 8 + 8 * vs.length = e + 8 * (vs.length + 1) by omega] at hrest
      exact (hlevel e (by omega)).append hrest

theorem aboveFrame_adjustStack (op : BinOp) (n : Nat) : ∀ i ∈ adjustStack op n, i.AboveFrame := by
  unfold adjustStack
  split <;> simp [Instr.AboveFrame, Instr.operands]

theorem dvd_stackPadding (n : Nat) : 16 ∣ stackPadding n + 8 * n := by
  unfold stackPadding
  split <;> omega

/-- A call leaves the stack as it was, and is made with the stack aligned. -/
theorem selectCall_levels (f : String) {args : List Value} (dst : Value) (hargs : args.length < 2 ^ 60) :
    Yields (selectCall T f args dst) (fun _ => True) fun code => (∀ i ∈ code, i.AboveFrame) ∧ Levels M code 0 0 := by
  unfold selectCall
  split
  · refine .bind (selectRegisterArgs_plain 0 (args.take 6)) fun moves hmoves => ?_
    refine .bind (selectPushes_levels (M := M) (args.drop 6).reverse) fun pushes ⟨hpushes, hlevels⟩ => ?_
    refine .bind (Width.ofValue_any dst) fun w _ => .pure ⟨?_, ?_⟩
    · simp only [callCode, List.forall_mem_append, List.forall_mem_cons]
      refine ⟨⟨⟨⟨aboveFrame_adjustStack .sub _, fun i hi => (hmoves i hi).2⟩, hpushes⟩, ?_,
        aboveFrame_adjustStack .add _⟩, ?_, by simp⟩
      · simp [Instr.AboveFrame, Instr.operands]
      · simp [Instr.AboveFrame, Instr.operands]
    · rw [List.length_reverse] at hlevels
      generalize hn : (args.drop 6).length = n at hlevels
      have hbound : stackPadding n + 8 * n < 2 ^ 63 := by
        have : n = args.length - 6 := by rw [← hn, List.length_drop]
        have : stackPadding n ≤ 8 := by unfold stackPadding; split <;> omega
        omega
      have hlower : Levels M (adjustStack .sub (stackPadding n)) 0 (stackPadding n) := by
        simpa using Levels.lower (M := M) (e := 0) (n := stackPadding n) (by omega)
      have hraise : Levels M (adjustStack .add (8 * n + stackPadding n)) (stackPadding n + 8 * n) 0 := by
        simpa [Nat.add_comm] using Levels.raise (M := M) (e := 0) (n := 8 * n + stackPadding n) (by omega)
      have hmoves' : Levels M moves (stackPadding n) (stackPadding n) := .quiet fun i hi => (hmoves i hi).1
      have hcall : Levels M (.call f :: adjustStack .add (8 * n + stackPadding n)) (stackPadding n + 8 * n) 0 :=
        Levels.append (a := [_]) (.call (dvd_stackPadding n)) hraise
      have hresult : Levels M [.mov w (.reg .ax) (.ofValue dst)] 0 0 := .quiet (by simp [Instr.isQuiet])
      exact (((hlower.append hmoves').append (hlevels _ hbound)).append hcall).append hresult
  · exact .throw trivial

end Selected

/-! ## Functions -/

/-- What the code of a function consists of behind the allocation of its frame: moves that fetch the parameters, and the
code of each instruction of intermediate code. -/
structure Parts where
  fetch : List Instr
  body : List (Ir.Instr × List Instr)

namespace Parts

/-- The code from the instruction with the given number on. -/
def codeFrom (parts : Parts) (k : Nat) : List Instr := (parts.body.drop k).flatMap Prod.snd

/-- The code with a frame of the given size. -/
def code (parts : Parts) (frame : Nat) : List Instr :=
  .binary .sub .quad (.imm (Int64.ofNat frame)) (.reg .sp) :: (parts.fetch ++ parts.codeFrom 0)

/-- The parts come from the parameters and the instructions of a function, placed in one frame. -/
structure ComeFrom (parts : Parts) (T : Khel.SymbolTable) (M : SymbolTable) (f : Ir.Function) (slots : Frame) :
    Prop where
  laidOut : slots.IsLaidOut M
  fetch : ∃ code, selectParams T 0 f.params = .ok code ∧ parts.fetch = slots.finish M code
  instrs : parts.body.map Prod.fst = f.code
  pieces : ∀ piece ∈ parts.body, ∃ code, select T piece.1 = .ok code ∧
    Placed (code.map (Instr.relocate (slots.placeOf M))) ∧ piece.2 = slots.finish M code

end Parts

/-- The point lies on a path from the start of the function, behind its first instruction. The function starts with the
stack pointer where the frame pointer is. -/
def Reached (world : World) (code : List Instr) (p : Point) : Prop :=
  ∃ m₀ : State, m₀.reg .sp = m₀.reg .bp ∧ Relation.TransGen (Follows world code) (code, m₀) p

/-- How a function with a frame of the given size treats the stack, along all its paths. -/
structure Parts.KeepsStack (parts : Parts) (frame : Nat) : Prop where
  aligned : 16 ∣ frame
  /-- The first instruction allocates the frame. -/
  first : ∀ world m₀ p, m₀.reg .sp = m₀.reg .bp → Follows world (parts.code frame) (parts.code frame, m₀) p →
    p.1 = (parts.code frame).tail ∧ p.2.depth = BitVec.ofNat 64 frame
  /-- Where control joins or parts, nothing lies on the stack below the frame. -/
  turns : ∀ world i rest m, Reached world (parts.code frame) (i :: rest, m) → i.isTurn = true →
    m.depth = BitVec.ofNat 64 frame
  never_below : ∀ world p, Reached world (parts.code frame) p → frame ≤ p.2.depth.toNat
  calls : ∀ world f rest m, Reached world (parts.code frame) (.call f :: rest, m) → m.depth.toNat % 16 = 0
  /-- No other instruction changes the stack pointer, and these stand only in the code of calls. -/
  moves : ∀ world i rest m p, Reached world (parts.code frame) (i :: rest, m) →
    Follows world (parts.code frame) (i :: rest, m) p → p.2.reg .sp ≠ m.reg .sp → i.movesStack = true
  fetch_still : ∀ i ∈ parts.fetch, i.movesStack = false
  body_still : ∀ piece ∈ parts.body, piece.1.callee? = none → ∀ i ∈ piece.2, i.movesStack = false
  /-- Slots lie within the frame, and a push overwrites none of them. -/
  slots : ∀ i ∈ parts.code frame, ∀ offset, .stack offset ∈ i.operands → -(frame : Int) ≤ offset
  pushes : ∀ world o rest m p, Reached world (parts.code frame) (.push o :: rest, m) →
    Follows world (parts.code frame) (.push o :: rest, m) p → ∀ i ∈ parts.code frame, ∀ offset < 0,
    .stack offset ∈ i.operands → ∀ w, p.2.read world w (.stack offset) = m.read world w (.stack offset)
  /-- Before and behind the code of every instruction, a call or not, the stack pointer is the same. -/
  restored : ∀ world j k m m', Reached world (parts.code frame) (parts.codeFrom j, m) →
    Relation.ReflTransGen (Follows world (parts.code frame)) (parts.codeFrom j, m) (parts.codeFrom k, m') →
    m'.reg .sp = m.reg .sp ∧ m.depth = BitVec.ofNat 64 frame

theorem AtLevel.depth {base : BitVec 64} {frame e : Nat} {p : Point} (h : AtLevel base frame p e) :
    p.2.depth = BitVec.ofNat 64 (frame + e) := by
  rw [State.depth, h.bp, h.sp, BitVec.sub_eq_iff_eq_add, BitVec.add_comm, BitVec.sub_add_cancel]

theorem AtLevel.toNat_depth {base : BitVec 64} {frame e : Nat} {p : Point} (h : AtLevel base frame p e)
    (hframe : frame < 2 ^ 32) : p.2.depth.toNat = frame + e := by
  have he := h.code.lt
  rw [h.depth, BitVec.toNat_ofNat]
  omega

section KeepsStack

variable {world : World} {parts : Parts} {frame : Nat} {p : Point}

/-- The first instruction allocates the frame. -/
theorem Parts.first (hcode : Balanced 0 (parts.code frame).tail) {code : List Instr} {m₀ : State}
    (hm : m₀.reg .sp = m₀.reg .bp) (h : Follows world code (parts.code frame, m₀) p) :
    p.1 = (parts.code frame).tail ∧ AtLevel (m₀.reg .bp) frame p 0 := by
  have hexec := exec_adjust .sub (Counts.read (m := m₀) (n := frame) (.inl rfl) world)
  cases h with
  | next hstep =>
    obtain ⟨m₁, hexec₁, hreg⟩ := reg_of_step hstep
    cases hexec₁.symm.trans hexec
    refine ⟨rfl, ?_, ?_, hcode _⟩
    · simp [hreg]
    · simp only [hreg, Function.update_self, hm]
      rfl
  | stuck hstep => cases (exec_of_stuck hstep).symm.trans hexec

theorem Parts.labels (hcode : Balanced 0 (parts.code frame).tail) (l : String) (target : List Instr)
    (h : .label l :: target <:+ parts.code frame) : ∀ s, Levelled s 0 (.label l :: target) := by
  rcases List.suffix_cons_iff.1 h with h | ⟨a, ha⟩
  · cases h
  · have hbody : Levelled 0 0 (a ++ .label l :: target) := ha.symm ▸ hcode 0
    exact hbody.at_label

/-- Behind the first instruction, the level is known on every path. -/
theorem Reached.atLevel (hcode : Balanced 0 (parts.code frame).tail) (h : Reached world (parts.code frame) p) :
    ∃ base e, AtLevel base frame p e := by
  obtain ⟨m₀, hm, hpath⟩ := h
  obtain ⟨p₁, hfirst, hpath⟩ := Relation.TransGen.head'_iff.1 hpath
  exact ⟨_, atLevel_of_path (Parts.labels hcode) hpath (Parts.first hcode hm hfirst).2⟩

/-- A push writes below the frame. -/
theorem read_of_push {base : BitVec 64} {e : Nat} {o : Operand} {code rest : List Instr} {m : State}
    (hp : AtLevel base frame (.push o :: rest, m) e) (hframe : frame < 2 ^ 32)
    (h : Follows world code (.push o :: rest, m) p) {offset : Int} (hoffset : -(frame : Int) ≤ offset)
    (hneg : offset < 0) (w : Width) : p.2.read world w (.stack offset) = m.read world w (.stack offset) := by
  obtain ⟨ho, hlt⟩ := hp.code.of_push
  have hbp : m.reg .bp = base := hp.bp
  have hsp : m.reg .sp - 8 = base + BitVec.ofInt 64 (-((frame + e + 8 : Nat) : Int)) := by
    rw [← sub_ofNat, ← base_sub_add base (frame + e) 8]
    exact congrArg (· - 8) hp.sp
  have hw : w.bytes ≤ 8 := by cases w <;> decide
  have hapart : Apart (base + BitVec.ofInt 64 offset) w.bytes (m.reg .sp - 8) 8 := by
    rw [hsp]
    refine Apart.symm (Apart.of_offsets ?_ ?_) <;> omega
  obtain ⟨v, hv⟩ := State.exists_read ho world m .quad
  cases h with
  | stuck => rfl
  | next hstep =>
    rw [step_push hv] at hstep
    cases hstep
    simp only [State.read, State.reg_pushed (r := .bp) (by decide), hbp]
    exact congrArg some (State.load_pushed_of_apart hapart)

/-- A function keeps the stack if the code of each instruction starts and ends with the stack at the frame. -/
theorem Parts.keepsStack (hframe : frame < 2 ^ 32) (haligned : 16 ∣ frame) (hcode : ∀ k, Balanced 0 (parts.codeFrom k))
    (hfetch : ∀ i ∈ parts.fetch, i.isQuiet = true)
    (hbody : ∀ piece ∈ parts.body, piece.1.callee? = none → ∀ i ∈ piece.2, i.movesStack = false)
    (hslots : ∀ i ∈ parts.code frame, ∀ offset, .stack offset ∈ i.operands → -(frame : Int) ≤ offset) :
    parts.KeepsStack frame where
  aligned := haligned
  first world m₀ p hm h := by
    obtain ⟨hrest, hp⟩ := Parts.first ((hcode 0).quiet hfetch) hm h
    exact ⟨hrest, hp.depth⟩
  turns world i rest m h hi := by
    obtain ⟨base, e, hp⟩ := h.atLevel ((hcode 0).quiet hfetch)
    obtain ⟨rfl, _⟩ := hp.code.of_turn hi
    exact hp.depth
  never_below world p h := by
    obtain ⟨base, e, hp⟩ := h.atLevel ((hcode 0).quiet hfetch)
    rw [hp.toNat_depth hframe]
    exact Nat.le_add_right ..
  calls world f rest m h := by
    obtain ⟨base, e, hp⟩ := h.atLevel ((hcode 0).quiet hfetch)
    have hdvd := hp.code.of_call.1
    rw [hp.toNat_depth hframe]
    omega
  moves world i rest m p h hstep hne := by
    obtain ⟨base, e, hp⟩ := h.atLevel ((hcode 0).quiet hfetch)
    obtain ⟨e', hp', hmoves⟩ := hstep.atLevel (Parts.labels ((hcode 0).quiet hfetch)) hp
    have hlevel : e' ≠ e := by
      rintro rfl
      exact hne (hp'.sp.trans hp.sp.symm)
    obtain ⟨_, _, hcons, hi⟩ := hmoves hlevel
    cases hcons
    exact hi
  fetch_still i hi := Instr.movesStack_of_quiet (hfetch i hi)
  body_still := hbody
  slots := hslots
  pushes world o rest m p h hstep i hi offset hneg ho w := by
    obtain ⟨base, e, hp⟩ := h.atLevel ((hcode 0).quiet hfetch)
    exact read_of_push hp hframe hstep (hslots i hi offset ho) hneg w
  restored world j k m m' h hpath := by
    obtain ⟨base, e, hp⟩ := h.atLevel ((hcode 0).quiet hfetch)
    obtain rfl := hp.code.unique (hcode j _)
    obtain ⟨e', hp'⟩ := atLevel_of_path (Parts.labels ((hcode 0).quiet hfetch)) hpath hp
    obtain rfl := hp'.code.unique (hcode k _)
    exact ⟨hp'.sp.trans hp.sp.symm, hp.depth⟩

end KeepsStack

section Functions

variable {T : Khel.SymbolTable} {M M' : SymbolTable}

/-- The code of a list of instructions is the code of each of them. -/
theorem selectAll_pieces : ∀ code : List Ir.Instr, Yields (selectAll T code) (fun _ => True) fun all =>
    ∃ pieces : List (Ir.Instr × List Instr), pieces.map Prod.fst = code ∧ all = pieces.flatMap Prod.snd ∧
      ∀ piece ∈ pieces, select T piece.1 = .ok piece.2
  | [] => .pure ⟨[], rfl, rfl, by simp⟩
  | i :: is => by
    refine .bind (R := fun code => select T i = .ok code) (.of_forall fun _ h => h) fun code hcode => ?_
    refine .bind (selectAll_pieces is) fun all ⟨pieces, hfst, hall, hpieces⟩ => .pure ⟨(i, code) :: pieces, ?_, ?_, ?_⟩
    · rw [List.map_cons, hfst]
    · rw [hall, List.flatMap_cons]
    · exact List.forall_mem_cons.2 ⟨hcode, hpieces⟩

theorem Function.ofIr_pieces (g : Ir.Function) : Yields (Function.ofIr T g) (fun _ => True) fun f =>
    f.name = g.name ∧ ∃ (fetch : List Instr) (pieces : List (Ir.Instr × List Instr)),
      f.code = fetch ++ pieces.flatMap Prod.snd ∧ selectParams T 0 g.params = .ok fetch ∧ pieces.map Prod.fst = g.code ∧
      ∀ piece ∈ pieces, select T piece.1 = .ok piece.2 := by
  refine .bind (R := fun fetch => selectParams T 0 g.params = .ok fetch) (.of_forall fun _ h => h)
    fun fetch hfetch => ?_
  refine .bind (selectAll_pieces g.code) fun all ⟨pieces, hfst, hall, hpieces⟩ => .pure ⟨rfl, fetch, pieces, ?_⟩
  exact ⟨by rw [hall], hfetch, hfst, hpieces⟩

/-- The code of an instruction leaves the stack at the frame, and finds only parameters on the stack. -/
theorem select_levels {i : Ir.Instr} (hargs : ∀ f args dst, i = .call f args dst → args.length < 2 ^ 60) :
    Yields (select T i) (fun _ => True) fun code => (∀ j ∈ code, j.AboveFrame) ∧ Levels M code 0 0 := by
  cases hi : i.callee? with
  | none => exact (select_plain hi).mono fun code hcode => ⟨fun j hj => (hcode j hj).2, .plain hcode⟩
  | some f =>
    cases i with
    | call f args dst => exact selectCall_levels f dst (hargs f args dst rfl)
    | _ => cases hi

theorem stack_of_splitMemory {i j : Instr} {offset : Int} (hj : j ∈ splitMemory i) (h : .stack offset ∈ j.operands) :
    .stack offset ∈ i.operands := by
  cases i <;> grind [splitMemory, Instr.operands, srcScratch]

theorem stack_of_legalOperands {i j : Instr} {offset : Int} (hj : j ∈ legalOperands i)
    (h : .stack offset ∈ j.operands) : .stack offset ∈ i.operands := by
  cases i <;>
    grind [legalOperands, legalMov.eq_def, legalMovsx, legalCmp, legalPush, legalIdiv, legalBinary, viaRegister,
      Instr.operands, srcScratch, dstScratch]

theorem stack_of_loadTexts {i j : Instr} {offset : Int} (hj : j ∈ (loadTexts i).1 ∨ j = (loadTexts i).2)
    (h : .stack offset ∈ j.operands) : .stack offset ∈ i.operands := by
  cases i <;> grind [loadTexts, loadText_eq, viaRegister, Instr.operands, srcScratch, dstScratch]

/-- Making code legal brings no new place on the stack. -/
theorem stack_of_legalCode {i j : Instr} {offset : Int} (hj : j ∈ legalCode i) (h : .stack offset ∈ j.operands) :
    .stack offset ∈ i.operands := by
  obtain ⟨k, hk, hj⟩ := List.mem_flatMap.1 hj
  have hk' := stack_of_splitMemory hj h
  rcases List.mem_append.1 hk with hk | hk
  · exact stack_of_loadTexts (.inl hk) hk'
  · exact stack_of_loadTexts (.inr rfl) (stack_of_legalOperands hk hk')

/-- A place on the stack of finished code is a slot or a parameter. -/
theorem Frame.IsLaidOut.le_of_finish {frame : Frame} (hf : frame.IsLaidOut M) {code : List Instr}
    (hcode : ∀ i ∈ code, i.AboveFrame) {j : Instr} (hj : j ∈ frame.finish M code) {offset : Int}
    (h : .stack offset ∈ j.operands) : frame.bottom ≤ offset := by
  obtain ⟨i', hi', hj⟩ := List.mem_flatMap.1 hj
  obtain ⟨i, hi, rfl⟩ := List.mem_map.1 hi'
  have hi'' := stack_of_legalCode hj h
  rw [Instr.operands_relocate] at hi''
  obtain ⟨o, ho, hplace⟩ := List.mem_map.1 hi''
  cases o with
  | pseudo x =>
    simp only [Frame.placeOf] at hplace
    split at hplace <;> cases hplace
    next hslot =>
      obtain ⟨_, _, hle, _⟩ := hf.slot x offset hslot
      exact hle
  | stack offset' =>
    cases hplace
    exact Int.le_trans hf.bottom (hcode i hi offset ho)
  | _ => cases hplace

/-- The frame that is allocated is no larger than what a constant of 32 bits can say. -/
theorem legalCode_allocation {n : Nat} (hn : n < 2 ^ 31) :
    legalCode (.binary .sub .quad (.imm (Int64.ofNat n)) (.reg .sp)) =
      [.binary .sub .quad (.imm (Int64.ofNat n)) (.reg .sp)] := by
  have hsmall : (Operand.imm (Int64.ofNat n)).isLargeImm = false := by
    have hlow : (Int64.ofNat n).toInt32.toInt64 = Int64.ofNat n := by
      rw [← Int64.toInt_inj, Int32.toInt_toInt64, Int64.toInt_toInt32, Int64.toInt_ofNat_of_lt (by omega)]
      exact Int.bmod_eq_of_le (by omega) (by omega)
    rw [Operand.isLargeImm, hlow, decide_eq_false_iff_not]
    exact fun h => h rfl
  simp [legalCode, loadTexts, loadText, legalOperands, legalBinary, viaRegister, hsmall, splitMemory, Operand.isReg]

theorem Frame.movesStack_of_finish {frame : Frame} {code : List Instr} (hcode : ∀ i ∈ code, i.IsPlain) :
    ∀ j ∈ frame.finish M code, j.movesStack = false := by
  intro j hj
  obtain ⟨i', hi', hj⟩ := List.mem_flatMap.1 hj
  obtain ⟨i, hi, rfl⟩ := List.mem_map.1 hi'
  rcases (hcode i hi).1 with hq | ht
  · exact Instr.movesStack_of_quiet (legalCode_quiet (Instr.isQuiet_relocate hq) j hj)
  · cases i with
    | label _ | jmp _ | jcc _ _ | ret =>
      obtain rfl := List.mem_singleton.1 hj
      rfl
    | _ => cases ht

/-- Code levels the stack if each of its parts does. -/
theorem balanced_flatMap (M : SymbolTable) (frame : Frame) : ∀ {pieces : List (Ir.Instr × List Instr)},
    (∀ piece ∈ pieces, ∃ code, Levels M code 0 0 ∧ Placed (code.map (Instr.relocate (frame.placeOf M))) ∧
      piece.2 = frame.finish M code) → Balanced 0 (pieces.flatMap Prod.snd)
  | [], _ => fun _ => .nil
  | piece :: pieces, h => by
    obtain ⟨⟨code, hlevels, hplaced, hpiece⟩, hpieces⟩ := List.forall_mem_cons.1 h
    rw [List.flatMap_cons, hpiece]
    exact hlevels frame hplaced _ (balanced_flatMap M frame hpieces)

/-- What is selected and placed keeps the stack. -/
theorem Parts.ComeFrom.keepsStack {parts : Parts} {g : Ir.Function} {slots : Frame} (h : parts.ComeFrom T M g slots)
    {frame : Nat} (hframe : frame < 2 ^ 32) (haligned : 16 ∣ frame) (hbottom : -slots.bottom ≤ frame)
    (hargs : ∀ f args dst, .call f args dst ∈ g.code → args.length < 2 ^ 60) : parts.KeepsStack frame := by
  obtain ⟨params, hparams, hfetch⟩ := h.fetch
  have hplain := (selectParams_plain 0 g.params).of_ok hparams
  have hlevels : ∀ piece ∈ parts.body, ∀ code, select T piece.1 = .ok code →
      (∀ j ∈ code, j.AboveFrame) ∧ Levels M code 0 0 := by
    intro piece hp code hcode
    have hmem : piece.1 ∈ g.code := h.instrs ▸ List.mem_map_of_mem hp
    exact (select_levels fun f args dst he => hargs f args dst (he ▸ hmem)).of_ok hcode
  refine Parts.keepsStack hframe haligned (fun k => balanced_flatMap M slots fun piece hp => ?_)
    (fun i hi => ?_) (fun piece hp hnone => ?_) fun i hi offset ho => ?_
  · obtain ⟨code, hselect, hplaced, hpiece⟩ := h.pieces piece (List.mem_of_mem_drop hp)
    exact ⟨code, (hlevels piece (List.mem_of_mem_drop hp) code hselect).2, hplaced, hpiece⟩
  · rw [hfetch] at hi
    obtain ⟨j', hj', hi⟩ := List.mem_flatMap.1 hi
    obtain ⟨j, hj, rfl⟩ := List.mem_map.1 hj'
    exact legalCode_quiet (Instr.isQuiet_relocate (hplain j hj).1) i hi
  · obtain ⟨code, hselect, _, hpiece⟩ := h.pieces piece hp
    rw [hpiece]
    exact Frame.movesStack_of_finish ((select_plain hnone).of_ok hselect)
  · refine Int.le_trans (by omega) (?_ : slots.bottom ≤ offset)
    rcases List.mem_cons.1 hi with rfl | hi
    · simp [Instr.operands] at ho
    · rcases List.mem_append.1 hi with hi | hi
      · exact h.laidOut.le_of_finish (fun j hj => (hplain j hj).2) (hfetch ▸ hi) ho
      · obtain ⟨piece, hp, hi⟩ := List.mem_flatMap.1 hi
        obtain ⟨code, hselect, _, hpiece⟩ := h.pieces piece hp
        exact h.laidOut.le_of_finish (hlevels piece hp code hselect).1 (hpiece ▸ hi) ho

/-- The code of a function is allocated a frame and made legal. -/
theorem Function.finish_code {f : Function} {size : Int} (hsize : M.frameSize? f.name = some size) :
    Yields (f.finish M) (fun _ => True) fun f' => f'.name = f.name ∧
      f'.code = legalCode (.binary .sub .quad (.imm (Int64.ofInt (roundUp16 size))) (.reg .sp)) ++
        f.code.flatMap legalCode := by
  rw [Function.finish, hsize]
  exact .bind (legalize_flatMap _) fun code hcode => .pure ⟨rfl, by rw [hcode, Function.allocate, List.flatMap_cons]⟩

/-- The stages of one function give its parts. -/
theorem Function.finish_parts {g : Ir.Function} {f₀ f₁ f₂ : Function} {size : Int}
    (hselect : Function.ofIr T g = .ok f₀) (hplaced : f₀.PlacedAs M f₁ size) (hfinish : f₁.finish M' = .ok f₂)
    (hsize : M'.frameSize? f₀.name = some size) {frame : Nat} (hround : roundUp16 size = frame) (hlt : frame < 2 ^ 31) :
    ∃ parts slots, f₂.name = g.name ∧ f₂.code = Parts.code parts frame ∧ parts.ComeFrom T M g slots ∧
      size = -slots.bottom := by
  obtain ⟨hname, fetch, pieces, hcode, hfetch, hfst, hpieces⟩ := (Function.ofIr_pieces g).of_ok hselect
  obtain ⟨slots, hslots, hbottom, hvars, hf₁⟩ := hplaced
  have hname₁ : f₁.name = f₀.name := by rw [hf₁]
  have hcode₁ : f₁.code = f₀.code.map (Instr.relocate (slots.placeOf M)) := by rw [hf₁]
  obtain ⟨hname₂, hcode₂⟩ := (Function.finish_code (hname₁ ▸ hsize)).of_ok hfinish
  refine ⟨⟨slots.finish M fetch, pieces.map fun piece => (piece.1, slots.finish M piece.2)⟩, slots,
    hname₂.trans (hname₁.trans hname), ?_, ⟨hslots, ⟨fetch, hfetch, rfl⟩, ?_, ?_⟩, hbottom⟩
  · rw [hcode₂, hround, Int64.ofInt_eq_ofNat, legalCode_allocation hlt, hcode₁, hcode]
    simp only [Parts.code, Parts.codeFrom, Frame.finish, List.map_append, List.flatMap_append, List.map_flatMap,
      List.flatMap_assoc, List.drop_zero, List.flatMap_map, List.singleton_append]
  · rw [List.map_map]
    exact hfst
  · intro piece hp
    obtain ⟨q, hq, rfl⟩ := List.mem_map.1 hp
    refine ⟨q.2, hpieces q hq, fun j hj => hvars j ?_, rfl⟩
    rw [hcode₁, hcode, List.map_append, List.map_flatMap]
    exact List.mem_append_right _ (List.mem_flatMap_of_mem hq hj)

/-! ## Programs -/

theorem forall₂_comp {α β γ : Type} {R : α → β → Prop} {S : β → γ → Prop} : ∀ {xs : List α} {ys : List β}
    {zs : List γ}, List.Forall₂ R xs ys → List.Forall₂ S ys zs → List.Forall₂ (fun x z => ∃ y, R x y ∧ S y z) xs zs
  | _, _, _, .nil, .nil => .nil
  | _, _, _, .cons h hs, .cons h' hs' => .cons ⟨_, h, h'⟩ (forall₂_comp hs hs')

theorem Program.ofIr_functions (p : Ir.Program) : Yields (Program.ofIr T p) (fun _ => True) fun r =>
    List.Forall₂ (fun g f => g ∈ p.functions ∧ Function.ofIr T g = .ok f) p.functions r.1.functions := by
  have hone : ∀ g ∈ p.functions, Yields (Function.ofIr T g) (fun _ => True) fun f =>
      g ∈ p.functions ∧ Function.ofIr T g = .ok f := fun g hg => .of_forall fun f hf => ⟨hg, hf⟩
  refine .bind (.mapM hone) fun functions hfunctions => ?_
  refine .bind (R := fun _ => True) (.of_forall fun _ _ => trivial) fun statics _ => ?_
  exact .bind (R := fun _ => True) (.of_forall fun _ _ => trivial) fun M _ => .pure hfunctions

theorem Program.finish_functions (p : Program) (M : SymbolTable) : Yields (p.finish M) (fun _ => True) fun r =>
    List.Forall₂ (fun f f' => f.finish M = .ok f') p.functions r.functions :=
  .bind (.mapM fun _ _ => .of_forall fun _ h => h) fun _ h => .pure h

/-- A program that comes through all stages keeps the stack, in every function and along every path. Sizes of frames are
rounded up in 32 bits, which has to succeed; and the bytes of the arguments of a call can be counted. -/
theorem Program.finish_keepsStack {p : Ir.Program} {q q' r : Program} (hselect : Program.ofIr T p = .ok (q, M))
    (hslots : q.assignSlots M = .ok (q', M')) (hfinish : q'.finish M' = .ok r)
    (hframes : ∀ g ∈ p.functions, ∀ size, M'.frameSize? g.name = some size →
      (Narrow.roundUp16 size).isSome = true)
    (hargs : ∀ g ∈ p.functions, ∀ f args dst, .call f args dst ∈ g.code → args.length < 2 ^ 60) :
    List.Forall₂ (fun g f => ∃ (size : Int) (frame : Nat) (parts : Parts) (slots : Frame),
      M'.frameSize? g.name = some size ∧ roundUp16 size = frame ∧ f.name = g.name ∧ f.code = parts.code frame ∧
      parts.ComeFrom T M g slots ∧ parts.KeepsStack frame) p.functions r.functions := by
  obtain ⟨_, _, hplaced⟩ := (Program.assignSlots_lays q M).of_ok hslots
  refine (forall₂_comp (forall₂_comp ((Program.ofIr_functions p).of_ok hselect) hplaced)
    ((Program.finish_functions q' M').of_ok hfinish)).imp ?_
  rintro g f₂ ⟨f₁, ⟨f₀, ⟨hg, hf₀⟩, size, hsize, hf₁⟩, hf₂⟩
  have hsize' : M'.frameSize? g.name = some size := by
    rw [← hsize, ((Function.ofIr_pieces g).of_ok hf₀).1]
  obtain ⟨frame, hround, hlt, hdvd, hle⟩ : ∃ frame : Nat, roundUp16 size = frame ∧ frame < 2 ^ 31 ∧ 16 ∣ frame ∧
      size ≤ frame := by
    have hsmall := hframes g hg size hsize'
    obtain ⟨slots, hslots, hbottom, _⟩ := hf₁
    have := hslots.bottom
    rw [Narrow.roundUp16_eq (by omega), Option.isSome_ite, Narrow.greatest] at hsmall
    refine ⟨(roundUp16 size).toNat, ?_⟩
    unfold roundUp16
    omega
  obtain ⟨parts, slots, hname, hcode, hparts, hbottom⟩ := Function.finish_parts hf₀ hf₁ hf₂ hsize hround hlt
  exact ⟨size, frame, parts, slots, hsize', hround, hname, hcode, hparts,
    hparts.keepsStack (by omega) hdvd (by omega) (hargs g hg)⟩

end Functions

/-- A function that passes seven arguments on, so that one of them travels on the stack. -/
def relay : Ir.Program where
  functions := [{
    name := "relay"
    isGlobal := true
    params := ["x"]
    code :=
      [.call "sum" [.int 1, .long 2, .str "three", .var "x", .var "x", .int 6, .var "x"] (.var "x"), .ret (.var "x")] }]
  externals := ["sum"]

/-- What is known of the names in it. -/
def relaySymbols : Khel.SymbolTable :=
  ⟨[("relay", ⟨.fn [.int32] .int32, .function true true⟩),
    ("sum", ⟨.fn [.int32, .int64, .string, .int32, .int32, .int32, .int32] .int32, .function false true⟩),
    ("x", ⟨.int32, .automatic⟩)]⟩

/-- One slot of four bytes makes a frame of sixteen, and the call needs padding. -/
theorem relay_keepsStack : ∃ q M q' M' r, Program.ofIr relaySymbols relay = .ok (q, M) ∧
    q.assignSlots M = .ok (q', M') ∧ q'.finish M' = .ok r ∧
    ∃ parts : Parts, r.functions.map Function.code = [parts.code 16] ∧ parts.KeepsStack 16 := by
  refine ⟨_, _, _, _, _, rfl, rfl, rfl, ?_⟩
  have hkeeps := Program.finish_keepsStack (T := relaySymbols) (p := relay) rfl rfl rfl
    (by
      intro g hg size hsize
      obtain rfl := List.mem_singleton.1 hg
      cases hsize
      decide)
    (by
      intro g hg f args dst hcall
      obtain rfl := List.mem_singleton.1 hg
      simp only [List.mem_cons, Ir.Instr.call.injEq, reduceCtorEq, List.not_mem_nil, or_false] at hcall
      obtain ⟨_, rfl, _⟩ := hcall
      decide)
  cases hkeeps with
  | cons h htail =>
    cases htail
    obtain ⟨size, frame, parts, slots, hsize, hround, _, hcode, _, hparts⟩ := h
    cases hsize
    obtain rfl : frame = 16 := Int.ofNat_inj.1 (hround.symm.trans rfl)
    exact ⟨parts, congrArg (fun code => [code]) hcode, hparts⟩

end Khel.Machine
