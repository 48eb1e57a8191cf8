import Khel.Proofs.Machine.Arguments
import Khel.Proofs.Machine.StackDepth

/-!
# Finished code can be encoded

Selection leaves operands where no instruction can take them, and making code legal moves them through the scratch
registers. Each of its steps brings new instructions, and none of them needs another round: what comes out of the last
step can be encoded. For that the types of intermediate code have to go together, since selection takes the width of an
instruction from one operand and never looks at the others.

* `Machine.Instr.IsEncodable`: the rules that an instruction has to keep.
* `Ir.Instr.IsUniform`: the types of an instruction of intermediate code go together.
* `Machine.Instr.Fits`: what selection sees to, and slot assignment keeps.
* `Machine.Instr.IsSettled`: what is left for the last step, which parts two operands in memory.
* `Machine.legalCode_encodable`: an instruction that fits is made encodable.
* `Machine.Program.finish_encodable`: so is every instruction of a finished program.
-/

namespace Khel

/-- The types of the operands go together, and only variables are written. -/
def Ir.Instr.IsUniform (T : SymbolTable) : Ir.Instr → Prop
  | .signExtend src dst => src.HasTy T .int32 ∧ dst.IsVarOf T .int64
  | .truncate src dst => src.HasTy T .int64 ∧ dst.IsVarOf T .int32
  | .unary .logicalNot _ dst | .call _ _ dst => ∃ x, dst = .var x
  | .unary _ src dst => (∃ t, t.isInteger = true ∧ src.HasTy T t) ∧ ∃ t, t.isInteger = true ∧ dst.IsVarOf T t
  | .copy src dst => ∃ t, src.HasTy T t ∧ dst.IsVarOf T t
  | .binary (.arith _) l r dst => ∃ t, t.isInteger = true ∧ l.HasTy T t ∧ r.HasTy T t ∧ dst.IsVarOf T t
  | .binary (.compare _) l r dst => (∃ t, l.HasTy T t ∧ r.HasTy T t) ∧ dst.IsVarOf T .int32
  | .ret _ | .jump _ | .jumpIfZero .. | .jumpIfNotZero .. | .label _ => True

namespace Machine

open Ir (Value)

/-! ## Rules of encoding -/

/-- Is it a constant of more than 32 bits, or the address of a text? -/
def Operand.isWide (o : Operand) : Bool := o.isLargeImm || o.isText

/-- The operands that cannot be constants: what is written, what a comparison is made with, a divisor, and whatever has
its sign extended. -/
def Instr.nonImms : Instr → List Operand
  | .cmp _ _ right => [right]
  | .idiv _ arg => [arg]
  | .movsx src dst => [src, dst]
  | i => i.destinations

/-- The operands that can only be registers. -/
def Instr.registers : Instr → List Operand
  | .movsx _ dst | .binary .mul _ _ dst => [dst]
  | _ => []

/-- The instruction can be encoded. -/
structure Instr.IsEncodable (i : Instr) : Prop where
  /-- Every variable has its place. -/
  placed : ∀ o ∈ i.operands, o.isPseudo = false
  /-- At most one operand is in memory. -/
  memory : i.operands.countP Operand.isMemory ≤ 1
  /-- A constant of more than 32 bits and the address of a text are only moved to a register, in eight bytes. -/
  wide : ∀ o ∈ i.operands, o.isWide = true → ∃ r, i = .mov .quad o (.reg r)
  nonImm : ∀ o ∈ i.nonImms, o.isImm = false
  register : ∀ o ∈ i.registers, o.isReg = true

section Operands

variable {o : Operand}

/-- What can be written is no variable, no constant and no text. -/
theorem Operand.of_isPlace (h : o.isPlace = true) :
    o.isPseudo = false ∧ o.isImm = false ∧ o.isLargeImm = false ∧ o.isText = false := by
  cases o <;> simp_all [Operand.isPlace, Operand.isPseudo, Operand.isImm, Operand.isLargeImm, Operand.isText]

theorem Operand.isWide_of_isPlace (h : o.isPlace = true) : o.isWide = false := by
  obtain ⟨_, _, hl, ht⟩ := Operand.of_isPlace h
  rw [Operand.isWide, hl, ht, Bool.or_false]

theorem Operand.isWide_eq_false : o.isWide = false ↔ o.isLargeImm = false ∧ o.isText = false := by
  rw [Operand.isWide, Bool.or_eq_false_iff]

theorem Operand.isMemory_of_isReg (h : o.isReg = true) : o.isMemory = false := by
  cases o <;> simp_all [Operand.isReg, Operand.isMemory]

theorem Operand.isPlace_of_isReg (h : o.isReg = true) : o.isPlace = true := by
  cases o <;> simp_all [Operand.isReg, Operand.isPlace]

/-- What is no variable, no constant and no text can be written. -/
theorem Operand.isPlace_of (hp : o.isPseudo = false) (hi : o.isImm = false) (ht : o.isText = false) :
    o.isPlace = true := by
  cases o <;> simp_all [Operand.isPlace, Operand.isPseudo, Operand.isImm, Operand.isText]

/-- The low half of a constant is a constant of 32 bits. -/
theorem Operand.isLargeImm_low (v : Int64) : (Operand.imm v.toInt32.toInt64).isLargeImm = false := by
  simp [Operand.isLargeImm]

@[simp] theorem Operand.isWide_int (v : Int32) : (Operand.imm v.toInt64).isWide = false := by
  simp [Operand.isWide, Operand.isLargeImm, Operand.isText]

@[simp] theorem Operand.isWide_reg (r : Register) : (Operand.reg r).isWide = false := rfl

end Operands

/-! ## The last step -/

/-- All that is left to do is to part two operands in memory. -/
def Instr.IsSettled : Instr → Prop
  | .mov w src dst => src.isPseudo = false ∧ dst.isPlace = true ∧ (src.isText = true → w = .quad) ∧
    (src.isLargeImm = true → w = .quad ∧ dst.isReg = true)
  | .movsx src dst => src.isPlace = true ∧ dst.isReg = true
  | .unary _ _ arg | .setcc _ arg => arg.isPlace = true
  | .binary op _ src dst => src.isPseudo = false ∧ src.isWide = false ∧ dst.isPlace = true ∧
    (op = .mul → dst.isReg = true)
  | .cmp _ left right => left.isPseudo = false ∧ left.isWide = false ∧ right.isPlace = true
  | .idiv _ arg => arg.isPlace = true
  | .push arg => arg.isPseudo = false ∧ arg.isWide = false
  | .cdq _ | .jmp _ | .jcc .. | .label _ | .call _ | .ret => True

theorem forall_mem_two {p : α → Prop} {a b : α} : (∀ x ∈ [a, b], p x) ↔ p a ∧ p b := by
  simp

theorem countP_two {a b : Operand} (h : (a.isMemory && b.isMemory) = false) : [a, b].countP Operand.isMemory ≤ 1 := by
  cases ha : a.isMemory <;> cases hb : b.isMemory <;> simp_all

section Encodable

variable {w : Width} {src dst : Operand}

theorem isEncodable_mov (hs : src.isPseudo = false) (hd : dst.isPlace = true)
    (hm : (src.isMemory && dst.isMemory) = false) (hw : src.isWide = true → w = .quad ∧ dst.isReg = true) :
    (Instr.mov w src dst).IsEncodable := by
  obtain ⟨hp, hi, _, _⟩ := Operand.of_isPlace hd
  refine ⟨by simp [Instr.operands, hs, hp], countP_two hm, fun o ho hwide => ?_,
    by simp [Instr.nonImms, Instr.destinations, hi], by simp [Instr.registers]⟩
  rcases List.mem_pair.1 ho with rfl | rfl
  · obtain ⟨rfl, hr⟩ := hw hwide
    cases dst with
    | reg r => exact ⟨r, rfl⟩
    | _ => cases hr
  · rw [Operand.isWide_of_isPlace hd] at hwide
    cases hwide

/-- An instruction without wide operands. -/
theorem Instr.IsEncodable.narrow {i : Instr} (hp : ∀ o ∈ i.operands, o.isPseudo = false)
    (hm : i.operands.countP Operand.isMemory ≤ 1) (hw : ∀ o ∈ i.operands, o.isWide = false)
    (hi : ∀ o ∈ i.nonImms, o.isImm = false) (hr : ∀ o ∈ i.registers, o.isReg = true) : i.IsEncodable := by
  refine ⟨hp, hm, fun o ho hwide => ?_, hi, hr⟩
  rw [hw o ho] at hwide
  cases hwide

/-- An instruction with one operand. -/
theorem Instr.IsEncodable.one {i : Instr} {o : Operand} (hi : i.operands = [o]) (hp : o.isPseudo = false)
    (hw : o.isWide = false) (hn : ∀ o ∈ i.nonImms, o.isImm = false) (hr : i.registers = []) : i.IsEncodable := by
  refine .narrow ?_ ?_ ?_ hn (by simp [hr])
  · simpa [hi] using hp
  · rw [hi]
    exact List.countP_le_length
  · simpa [hi] using hw

/-- A move through the register for sources. -/
theorem isEncodable_viaSrc (hs : src.isPseudo = false) (hw : src.isWide = true → w = .quad) :
    (Instr.mov w src srcScratch).IsEncodable :=
  isEncodable_mov hs rfl (by simp [srcScratch, Operand.isMemory]) fun h => ⟨hw h, rfl⟩

theorem isEncodable_binary {op : BinOp} (hs : src.isPseudo = false) (hw : src.isWide = false) (hd : dst.isPlace = true)
    (hr : op = .mul → dst.isReg = true) (hm : (src.isMemory && dst.isMemory) = false) :
    (Instr.binary op w src dst).IsEncodable := by
  obtain ⟨hp, hi, _, _⟩ := Operand.of_isPlace hd
  have hwd := Operand.isWide_of_isPlace hd
  refine .narrow (by simp [Instr.operands, hs, hp]) (countP_two hm) (by simp [Instr.operands, hw, hwd])
    (by simp [Instr.nonImms, Instr.destinations, hi]) fun o ho => ?_
  cases op with
  | mul =>
    obtain rfl := List.mem_singleton.1 ho
    exact hr rfl
  | add | sub => cases ho

theorem isEncodable_cmp {left right : Operand} (hl : left.isPseudo = false) (hw : left.isWide = false)
    (hr : right.isPlace = true) (hm : (left.isMemory && right.isMemory) = false) :
    (Instr.cmp w left right).IsEncodable := by
  obtain ⟨hp, hi, _, _⟩ := Operand.of_isPlace hr
  have hwr := Operand.isWide_of_isPlace hr
  exact .narrow (by simp [Instr.operands, hl, hp]) (countP_two hm) (by simp [Instr.operands, hw, hwr])
    (by simp [Instr.nonImms, hi]) (by simp [Instr.registers])

/-- Where two operands are in memory, the first of them goes to a register. -/
theorem splitMemory_encodable : ∀ {i : Instr}, i.IsSettled → ∀ j ∈ splitMemory i, j.IsEncodable
  | .mov w src dst, ⟨hs, hd, ht, hl⟩ => by
    have hwide : src.isWide = true → w = .quad := by
      rw [Operand.isWide, Bool.or_eq_true]
      exact fun h => h.elim (fun h => (hl h).1) ht
    rw [splitMemory]
    split
    · refine forall_mem_two.2 ⟨isEncodable_viaSrc hs hwide, ?_⟩
      exact isEncodable_mov rfl hd rfl (by simp [srcScratch])
    · next hm =>
      rw [Bool.not_eq_true] at hm
      refine List.forall_mem_singleton.2 (isEncodable_mov hs hd hm fun h => ⟨hwide h, ?_⟩)
      rw [Operand.isWide, Bool.or_eq_true] at h
      rcases h with h | h
      · exact (hl h).2
      · -- The address of a text counts as memory, so the destination is not in memory.
        cases src <;> cases dst <;> simp_all [Operand.isText, Operand.isMemory, Operand.isPlace, Operand.isReg]
  | .cmp w left right, ⟨hl, hw, hr⟩ => by
    rw [splitMemory]
    split
    · refine forall_mem_two.2 ⟨isEncodable_viaSrc hl (by simp [hw]), ?_⟩
      exact isEncodable_cmp rfl rfl hr rfl
    · next hm =>
      rw [Bool.not_eq_true] at hm
      exact List.forall_mem_singleton.2 (isEncodable_cmp hl hw hr hm)
  | .binary op w src dst, ⟨hs, hw, hd, hr⟩ => by
    rw [splitMemory]
    split
    · refine forall_mem_two.2 ⟨isEncodable_viaSrc hs (by simp [hw]), ?_⟩
      exact isEncodable_binary rfl rfl hd hr rfl
    · next hm =>
      rw [Bool.not_eq_true] at hm
      exact List.forall_mem_singleton.2 (isEncodable_binary hs hw hd hr hm)
  | .movsx src dst, ⟨hs, hd⟩ => by
    refine List.forall_mem_singleton.2 ?_
    obtain ⟨hps, his, _, _⟩ := Operand.of_isPlace hs
    obtain ⟨hpd, hid, _, _⟩ := Operand.of_isPlace (Operand.isPlace_of_isReg hd)
    have hwd := Operand.isWide_of_isPlace (Operand.isPlace_of_isReg hd)
    refine .narrow (by simp [Instr.operands, hps, hpd]) (countP_two ?_)
      (by simp [Instr.operands, Operand.isWide_of_isPlace hs, hwd]) (by simp [Instr.nonImms, his, hid])
      (by simp [Instr.registers, hd])
    rw [Operand.isMemory_of_isReg hd, Bool.and_false]
  | .unary _ _ arg, h | .setcc _ arg, h => by
    refine List.forall_mem_singleton.2 ?_
    obtain ⟨hp, hi, _, _⟩ := Operand.of_isPlace h
    exact .one rfl hp (Operand.isWide_of_isPlace h) (by simp [Instr.nonImms, Instr.destinations, hi]) rfl
  | .idiv _ arg, h => by
    refine List.forall_mem_singleton.2 ?_
    obtain ⟨hp, hi, _, _⟩ := Operand.of_isPlace h
    exact .one rfl hp (Operand.isWide_of_isPlace h) (by simp [Instr.nonImms, hi]) rfl
  | .push arg, ⟨hp, hw⟩ =>
    List.forall_mem_singleton.2 (.one rfl hp hw (by simp [Instr.nonImms, Instr.destinations]) rfl)
  | .cdq _, _ | .jmp _, _ | .jcc .., _ | .label _, _ | .call _, _ | .ret, _ =>
    List.forall_mem_singleton.2 (.narrow (by simp [Instr.operands]) (by simp [Instr.operands])
      (by simp [Instr.operands]) (by simp [Instr.nonImms, Instr.destinations]) (by simp [Instr.registers]))

end Encodable

/-! ## Instructions that fit -/

/-- A wide operand stands only where eight bytes are worked on, a text only where its address can be loaded, and what is
written is neither a constant nor a text. A move is the exception: of a wide constant it takes the bytes that it
needs. -/
def Instr.Fits : Instr → Prop
  | .mov w src dst => (src.isText = true → w = .quad) ∧ dst.isImm = false ∧ dst.isText = false
  | .movsx src dst => src.isWide = false ∧ dst.isImm = false ∧ dst.isText = false
  | .unary _ _ arg | .setcc _ arg => arg.isImm = false ∧ arg.isText = false
  | .binary _ w src dst => (src.isWide = true → w = .quad) ∧ dst.isImm = false ∧ dst.isText = false
  | .cmp w left right => (left.isWide = true → w = .quad) ∧ (right.isWide = true → w = .quad)
  | .idiv w arg => arg.isWide = true → w = .quad
  | .push arg => arg.isText = false
  | .cdq _ | .jmp _ | .jcc .. | .label _ | .call _ | .ret => True

section Legal

variable {w : Width} {a b : Operand}

/-- An operand that is a text is replaced by a register, behind a move that loads the address. -/
theorem loadText_settled (scratch : Register) (hp : a.isPseudo = false) :
    (∀ j ∈ (loadText (.reg scratch) a).1, j.IsSettled) ∧ (loadText (.reg scratch) a).2.isPseudo = false ∧
      (loadText (.reg scratch) a).2.isText = false ∧
      ((loadText (.reg scratch) a).2.isLargeImm = true → a.isWide = true) := by
  cases a <;> simp_all [loadText, Instr.IsSettled, Operand.isPseudo, Operand.isText, Operand.isLargeImm,
    Operand.isPlace, Operand.isWide]

/-- An operand is moved to a register if a condition asks for it; otherwise it stays as it is. -/
theorem viaRegister_settled (needed : Bool) (scratch : Register) (hp : a.isPseudo = false) (ht : a.isText = false)
    (hl : a.isLargeImm = true → needed = true → w = .quad) :
    (∀ j ∈ (viaRegister needed w (.reg scratch) a).1, j.IsSettled) ∧
      (viaRegister needed w (.reg scratch) a).2 = if needed then .reg scratch else a := by
  cases needed <;> simp_all [viaRegister, Instr.IsSettled, Operand.isPlace, Operand.isReg]

theorem legalMov_settled (hp : a.isPseudo = false) (hd : b.isPlace = true) (ht : a.isText = true → w = .quad) :
    ∀ j ∈ legalMov w a b, j.IsSettled := by
  unfold legalMov
  split
  · next hl =>
    split
    · next v =>
      refine List.forall_mem_singleton.2 ⟨rfl, hd, nofun, fun h => ?_⟩
      rw [Operand.isLargeImm_low] at h
      cases h
    · next hno =>
      have hquad : w = .quad := by
        cases w with
        | quad => rfl
        | long =>
          cases a with
          | imm v => exact (hno v rfl rfl).elim
          | _ => cases hl
      exact forall_mem_two.2 ⟨⟨hp, rfl, fun _ => hquad, fun _ => ⟨hquad, rfl⟩⟩, rfl, hd, nofun, nofun⟩
  · next hl => exact List.forall_mem_singleton.2 ⟨hp, hd, ht, fun h => (hl h).elim⟩

theorem legalMovsx_settled (hp : a.isPseudo = false) (hw : a.isWide = false) (hd : b.isPlace = true) :
    ∀ j ∈ legalMovsx a b, j.IsSettled := by
  obtain ⟨hl, ht⟩ := Operand.isWide_eq_false.1 hw
  obtain ⟨hload, hsrc⟩ := viaRegister_settled (w := .long) a.isImm .r10 hp ht (by simp [hl])
  have hplace : (viaRegister a.isImm .long (.reg .r10) a).2.isPlace = true := by
    rw [hsrc]
    split
    · rfl
    · next hi => exact Operand.isPlace_of hp (Bool.not_eq_true _ ▸ hi) ht
  unfold legalMovsx srcScratch
  dsimp only
  split
  · refine List.forall_mem_append.2 ⟨hload, forall_mem_two.2 ⟨⟨hplace, rfl⟩, rfl, hd, nofun, nofun⟩⟩
  · next hm =>
    refine List.forall_mem_append.2 ⟨hload, List.forall_mem_singleton.2 ⟨hplace, ?_⟩⟩
    cases b <;> simp_all [Operand.isPlace, Operand.isMemory, Operand.isReg]

theorem legalCmp_settled (hpa : a.isPseudo = false) (hpb : b.isPseudo = false) (hta : a.isText = false)
    (htb : b.isText = false) (ha : a.isLargeImm = true → w = .quad) (hb : b.isLargeImm = true → w = .quad) :
    ∀ j ∈ legalCmp w a b, j.IsSettled := by
  obtain ⟨hloadA, heqA⟩ := viaRegister_settled (w := w) a.isLargeImm .r10 hpa hta fun h _ => ha h
  obtain ⟨hloadB, heqB⟩ := viaRegister_settled (w := w) b.isImm .r11 hpb htb fun h _ => hb h
  unfold legalCmp srcScratch dstScratch
  dsimp only
  refine List.forall_mem_append.2 ⟨List.forall_mem_append.2 ⟨hloadA, hloadB⟩, List.forall_mem_singleton.2 ?_⟩
  rw [heqA, heqB]
  refine ⟨?_, ?_, ?_⟩
  · split
    · rfl
    · exact hpa
  · split
    · rfl
    · next hl => exact Operand.isWide_eq_false.2 ⟨Bool.not_eq_true _ ▸ hl, hta⟩
  · split
    · rfl
    · next hi => exact Operand.isPlace_of hpb (Bool.not_eq_true _ ▸ hi) htb

theorem legalPush_settled (hp : a.isPseudo = false) (ht : a.isText = false) : ∀ j ∈ legalPush a, j.IsSettled := by
  obtain ⟨hload, heq⟩ := viaRegister_settled (w := .quad) a.isLargeImm .r10 hp ht fun _ _ => rfl
  unfold legalPush srcScratch
  dsimp only
  refine List.forall_mem_append.2 ⟨hload, List.forall_mem_singleton.2 ?_⟩
  rw [heq]
  split
  · exact ⟨rfl, rfl⟩
  · next hl => exact ⟨hp, Operand.isWide_eq_false.2 ⟨Bool.not_eq_true _ ▸ hl, ht⟩⟩

theorem legalIdiv_settled (hp : a.isPseudo = false) (ht : a.isText = false) (ha : a.isLargeImm = true → w = .quad) :
    ∀ j ∈ legalIdiv w a, j.IsSettled := by
  obtain ⟨hload, heq⟩ := viaRegister_settled (w := w) a.isImm .r10 hp ht fun h _ => ha h
  unfold legalIdiv srcScratch
  dsimp only
  refine List.forall_mem_append.2 ⟨hload, List.forall_mem_singleton.2 ?_⟩
  rw [heq]
  split
  · rfl
  · next hi => exact Operand.isPlace_of hp (Bool.not_eq_true _ ▸ hi) ht

theorem legalBinary_settled (op : BinOp) (hp : a.isPseudo = false) (ht : a.isText = false) (hd : b.isPlace = true)
    (ha : a.isLargeImm = true → w = .quad) : ∀ j ∈ legalBinary op w a b, j.IsSettled := by
  obtain ⟨hload, heq⟩ :=
    viaRegister_settled (w := w) (w = .quad && a.isLargeImm) .r10 hp ht fun h _ => ha h
  obtain ⟨hpb, _, hlb, htb⟩ := Operand.of_isPlace hd
  have hsrc : ((viaRegister (w = .quad && a.isLargeImm) w (.reg .r10) a).2.isPseudo = false) ∧
      (viaRegister (w = .quad && a.isLargeImm) w (.reg .r10) a).2.isWide = false := by
    rw [heq]
    split
    · exact ⟨rfl, rfl⟩
    · next hl =>
      refine ⟨hp, Operand.isWide_eq_false.2 ⟨?_, ht⟩⟩
      cases hla : a.isLargeImm with
      | false => rfl
      | true => simp [ha hla, hla] at hl
  unfold legalBinary srcScratch dstScratch
  dsimp only
  split
  · refine List.forall_mem_append.2 ⟨hload, ?_⟩
    refine List.forall_mem_cons.2 ⟨⟨hpb, rfl, by simp [htb], by simp [hlb]⟩, ?_⟩
    exact forall_mem_two.2 ⟨⟨hsrc.1, hsrc.2, rfl, fun _ => rfl⟩, rfl, hd, nofun, nofun⟩
  · next hmul =>
    refine List.forall_mem_append.2 ⟨hload, List.forall_mem_singleton.2 ⟨hsrc.1, hsrc.2, hd, ?_⟩⟩
    rintro rfl
    simpa using hmul

/-- Every step but the last leaves instructions that are settled. -/
theorem legalSteps_settled : ∀ {i : Instr}, i.Fits → (∀ o ∈ i.operands, o.isPseudo = false) →
    ∀ j ∈ (loadTexts i).1 ++ legalOperands (loadTexts i).2, j.IsSettled
  | .mov w src dst, ⟨ht, hi, htd⟩, hp => by
    obtain ⟨hps, hpd⟩ := forall_mem_two.1 hp
    exact legalMov_settled hps (Operand.isPlace_of hpd hi htd) ht
  | .movsx src dst, ⟨hw, hi, htd⟩, hp => by
    obtain ⟨hps, hpd⟩ := forall_mem_two.1 hp
    exact legalMovsx_settled hps hw (Operand.isPlace_of hpd hi htd)
  | .unary _ _ arg, ⟨hi, ht⟩, hp | .setcc _ arg, ⟨hi, ht⟩, hp =>
    List.forall_mem_singleton.2 (Operand.isPlace_of (hp arg List.mem_cons_self) hi ht)
  | .binary op w src dst, ⟨hw, hi, htd⟩, hp => by
    obtain ⟨hps, hpd⟩ := forall_mem_two.1 hp
    obtain ⟨hload, hp', ht', hl'⟩ := loadText_settled .r10 hps
    refine List.forall_mem_append.2 ⟨hload, ?_⟩
    exact legalBinary_settled op hp' ht' (Operand.isPlace_of hpd hi htd) fun h => hw (hl' h)
  | .cmp w left right, ⟨hwl, hwr⟩, hp => by
    obtain ⟨hpl, hpr⟩ := forall_mem_two.1 hp
    obtain ⟨hloadL, hpl', htl, hll⟩ := loadText_settled .r10 hpl
    obtain ⟨hloadR, hpr', htr, hlr⟩ := loadText_settled .r11 hpr
    refine List.forall_mem_append.2 ⟨List.forall_mem_append.2 ⟨hloadL, hloadR⟩, ?_⟩
    exact legalCmp_settled hpl' hpr' htl htr (fun h => hwl (hll h)) fun h => hwr (hlr h)
  | .idiv w arg, hw, hp => by
    obtain ⟨hload, hp', ht', hl'⟩ := loadText_settled .r10 (hp arg List.mem_cons_self)
    exact List.forall_mem_append.2 ⟨hload, legalIdiv_settled hp' ht' fun h => hw (hl' h)⟩
  | .push arg, ht, hp => legalPush_settled (hp arg List.mem_cons_self) ht
  | .cdq _, _, _ | .jmp _, _, _ | .jcc .., _, _ | .label _, _, _ | .call _, _, _ | .ret, _, _ =>
    List.forall_mem_singleton.2 trivial

/-- An instruction that fits, and whose variables have their places, is made encodable. -/
theorem legalCode_encodable {i : Instr} (hi : i.Fits) (hp : ∀ o ∈ i.operands, o.isPseudo = false) :
    ∀ j ∈ legalCode i, j.IsEncodable := by
  intro k hk
  obtain ⟨j, hj, hk⟩ := List.mem_flatMap.1 hk
  exact splitMemory_encodable (legalSteps_settled hi hp j hj) k hk

end Legal

/-! ## Selected code -/

section Select

variable {T : Khel.SymbolTable} {M : SymbolTable} {t : Ty}

/-- A value that is wide fills eight bytes. -/
theorem Operand.quad_of_isWide {v : Value} (hv : v.HasTy T t) (h : (Operand.ofValue v).isWide = true) :
    t.width = .quad := by
  cases v with
  | int v => simp [Operand.ofValue] at h
  | long v | str s =>
    cases hv.1
    rfl
  | var x => cases h

/-- The width of a value is wide enough for it. -/
theorem Width.ofValue_fits (v : Value) : Yields (Width.ofValue T v) (fun _ => True) fun w =>
    (Operand.ofValue v).isWide = true → w = .quad := by
  cases v with
  | int v => exact .pure (by simp [Operand.ofValue])
  | long v | str s => exact .pure fun _ => rfl
  | var x =>
    refine .of_forall fun w _ h => ?_
    cases h

theorem Operand.isWide_of_isText {o : Operand} (h : o.isText = true) : o.isWide = true := by
  rw [Operand.isWide, h, Bool.or_true]

theorem Operand.ofParam_writable (n : Nat) :
    (Operand.ofParam n).isImm = false ∧ (Operand.ofParam n).isText = false := by
  unfold Operand.ofParam
  split <;> exact ⟨rfl, rfl⟩

theorem selectParams_fits : ∀ (n : Nat) (xs : List String),
    Yields (selectParams T n xs) (fun _ => True) fun code => ∀ i ∈ code, i.Fits
  | _, [] => .pure (by simp)
  | n, x :: xs => by
    refine .bind (R := fun _ => True) (.of_forall fun _ _ => trivial) fun w _ => ?_
    refine .bind (selectParams_fits (n + 1) xs) fun code hcode => .pure (List.forall_mem_cons.2 ⟨⟨?_, rfl, rfl⟩, hcode⟩)
    simp [Operand.ofParam_writable]

theorem selectRegisterArgs_fits : ∀ (n : Nat) (vs : List Value),
    Yields (selectRegisterArgs T n vs) (fun _ => True) fun code => ∀ i ∈ code, i.Fits
  | _, [] => .pure (by simp)
  | n, v :: vs => by
    refine .bind (Width.ofValue_fits v) fun w hw => ?_
    refine .bind (selectRegisterArgs_fits (n + 1) vs) fun code hcode => .pure (List.forall_mem_cons.2 ⟨?_, hcode⟩)
    exact ⟨fun h => hw (Operand.isWide_of_isText h), Operand.ofParam_writable n⟩

theorem selectPush_fits (v : Value) : Yields (selectPush T v) (fun _ => True) fun code => ∀ i ∈ code, i.Fits := by
  refine .bind (Width.ofValue_fits v) fun w hw => ?_
  split
  · exact .pure (List.forall_mem_singleton.2 rfl)
  · exact .pure (List.forall_mem_singleton.2 rfl)
  · exact .pure (List.forall_mem_singleton.2 rfl)
  · exact .pure (forall_mem_two.2 ⟨⟨fun h => hw (Operand.isWide_of_isText h), rfl, rfl⟩, rfl⟩)

theorem selectPushes_fits : ∀ vs : List Value,
    Yields (selectPushes T vs) (fun _ => True) fun code => ∀ i ∈ code, i.Fits
  | [] => .pure (by simp)
  | v :: vs => .bind (selectPush_fits v) fun _ hpush => .bind (selectPushes_fits vs) fun _ hpushes =>
    .pure (List.forall_mem_append.2 ⟨hpush, hpushes⟩)

theorem adjustStack_fits (op : BinOp) (n : Nat) : ∀ i ∈ adjustStack op n, i.Fits := by
  unfold adjustStack
  split
  · simp
  · exact List.forall_mem_singleton.2 ⟨fun _ => rfl, rfl, rfl⟩

theorem selectCall_fits (f x : String) (args : List Value) :
    Yields (selectCall T f args (.var x)) (fun _ => True) fun code => ∀ i ∈ code, i.Fits := by
  unfold selectCall
  split
  · refine .bind (selectRegisterArgs_fits 0 (args.take 6)) fun moves hmoves => ?_
    refine .bind (selectPushes_fits (args.drop 6).reverse) fun pushes hpushes => ?_
    refine .bind (Width.ofValue_fits (.var x)) fun w _ => .pure ?_
    simp only [callCode, List.forall_mem_append, List.forall_mem_cons]
    exact ⟨⟨⟨⟨adjustStack_fits .sub _, hmoves⟩, hpushes⟩, trivial, adjustStack_fits .add _⟩, ⟨nofun, rfl, rfl⟩, by simp⟩
  · exact .throw trivial

theorem compareCode_fits {w dw : Width} {c : Cond} {left right : Operand} (x : String)
    (hl : left.isWide = true → w = .quad) (hr : right.isWide = true → w = .quad) :
    ∀ i ∈ compareCode w dw c left right (.pseudo x), i.Fits := by
  unfold compareCode
  simp only [List.forall_mem_cons]
  exact ⟨⟨hl, hr⟩, ⟨nofun, rfl, rfl⟩, ⟨rfl, rfl⟩, by simp⟩

theorem selectUnary_fits (op : UnaryOp) (src : Value) (x : String) :
    Yields (selectUnary T op src (.var x)) (fun _ => True) fun code => ∀ i ∈ code, i.Fits := by
  unfold selectUnary
  refine .bind (Width.ofValue_fits src) fun w hw => ?_
  refine .bind (Width.ofValue_fits (.var x)) fun dw _ => ?_
  cases op with
  | negate | complement =>
    exact .pure (forall_mem_two.2 ⟨⟨fun h => hw (Operand.isWide_of_isText h), rfl, rfl⟩, rfl, rfl⟩)
  | logicalNot => exact .pure (compareCode_fits x (by simp [Operand.isWide, Operand.isLargeImm, Operand.isText]) hw)

/-- The width comes from the left operand, and it is that of the right operand too. -/
theorem selectBinary_fits (op : StrictOp) {l r : Value} (x : String) (hl : l.HasTy T t) (hr : r.HasTy T t) :
    Yields (selectBinary T op l r (.var x)) (fun _ => True) fun code => ∀ i ∈ code, i.Fits := by
  have hwl : (Operand.ofValue l).isWide = true → t.width = .quad := Operand.quad_of_isWide hl
  have hwr : (Operand.ofValue r).isWide = true → t.width = .quad := Operand.quad_of_isWide hr
  have hmov : ∀ dst : Operand, dst.isImm = false → dst.isText = false →
      (Instr.mov t.width (Operand.ofValue l) dst).Fits :=
    fun dst hi ht => ⟨fun h => hwl (Operand.isWide_of_isText h), hi, ht⟩
  unfold selectBinary
  rw [Width.ofValue_eq hl]
  cases op with
  | arith op =>
    cases op with
    | add | sub | mul => exact .pure (forall_mem_two.2 ⟨hmov _ rfl rfl, hwr, rfl, rfl⟩)
    | div | rem =>
      have hresult : ∀ w r, (Instr.mov w (.reg r) (.pseudo x)).Fits := by
        simp [Instr.Fits, Operand.isText, Operand.isImm]
      refine .pure ?_
      simp only [divisionCode, List.forall_mem_cons]
      exact ⟨hmov _ rfl rfl, trivial, hwr, hresult _ _, by simp⟩
  | compare op =>
    change Yields (Width.ofValue T (.var x) >>= _) _ _
    exact .bind (Width.ofValue_fits (.var x)) fun dw _ => .pure (compareCode_fits x hwr hwl)

theorem selectJump_fits (c : Cond) (test : Value) (target : String) :
    Yields (selectJump T c test target) (fun _ => True) fun code => ∀ i ∈ code, i.Fits := by
  refine .bind (Width.ofValue_fits test) fun w hw => .pure (forall_mem_two.2 ⟨⟨?_, hw⟩, trivial⟩)
  simp [Operand.isWide, Operand.isLargeImm, Operand.isText]

/-- The code of an instruction whose types go together fits. -/
theorem select_fits : ∀ {i : Ir.Instr}, i.IsUniform T →
    Yields (select T i) (fun _ => True) fun code => ∀ j ∈ code, j.Fits
  | .ret v, _ => .bind (Width.ofValue_fits v) fun w hw =>
    .pure (forall_mem_two.2 ⟨⟨fun h => hw (Operand.isWide_of_isText h), rfl, rfl⟩, trivial⟩)
  | .signExtend src dst, ⟨hs, _, x, hx⟩ => by
    subst hx
    refine .pure (List.forall_mem_singleton.2 ⟨?_, rfl, rfl⟩)
    cases hw : (Operand.ofValue src).isWide with
    | false => rfl
    | true => cases Operand.quad_of_isWide hs hw
  | .truncate src dst, ⟨hs, _, x, hx⟩ => by
    subst hx
    refine .pure (List.forall_mem_singleton.2 ⟨fun h => ?_, rfl, rfl⟩)
    cases src with
    | str s => cases hs.1
    | _ => cases h
  | .unary .logicalNot src dst, ⟨x, hx⟩ | .unary .negate src dst, ⟨_, _, _, _, x, hx⟩
  | .unary .complement src dst, ⟨_, _, _, _, x, hx⟩ => by
    subst hx
    rw [select]
    exact selectUnary_fits _ src x
  | .binary (.arith op) l r dst, ⟨t, _, hl, hr, _, x, hx⟩ => by
    subst hx
    exact selectBinary_fits (.arith op) x hl hr
  | .binary (.compare op) l r dst, ⟨⟨t, hl, hr⟩, _, x, hx⟩ => by
    subst hx
    exact selectBinary_fits (.compare op) x hl hr
  | .copy src dst, ⟨t, hs, hd, x, hx⟩ => by
    subst hx
    rw [select, Width.ofValue_eq hd]
    refine .pure (List.forall_mem_singleton.2 ⟨fun h => ?_, rfl, rfl⟩)
    exact Operand.quad_of_isWide hs (Operand.isWide_of_isText h)
  | .jump _, _ | .label _, _ => .pure (List.forall_mem_singleton.2 trivial)
  | .jumpIfZero test target, _ => selectJump_fits .e test target
  | .jumpIfNotZero test target, _ => selectJump_fits .ne test target
  | .call f args dst, ⟨x, hx⟩ => by
    subst hx
    exact selectCall_fits f x args

theorem Function.ofIr_fits {g : Ir.Function} (hg : ∀ i ∈ g.code, i.IsUniform T) :
    Yields (Function.ofIr T g) (fun _ => True) fun f => ∀ i ∈ f.code, i.Fits := by
  refine (Function.ofIr_pieces g).mono ?_
  rintro f ⟨_, fetch, pieces, hcode, hfetch, hfst, hpieces⟩
  rw [hcode]
  refine List.forall_mem_append.2 ⟨(selectParams_fits 0 g.params).of_ok hfetch, fun j hj => ?_⟩
  obtain ⟨piece, hpiece, hj⟩ := List.mem_flatMap.1 hj
  have hmem : piece.1 ∈ g.code := hfst ▸ List.mem_map_of_mem hpiece
  exact (select_fits (hg _ hmem)).of_ok (hpieces piece hpiece) j hj

/-! ## Placed code -/

/-- A place is no constant and no text, and neither is a variable. -/
theorem Frame.placeOf_kind (frame : Frame) (o : Operand) : (frame.placeOf M o).isImm = o.isImm ∧
    (frame.placeOf M o).isText = o.isText ∧ (frame.placeOf M o).isWide = o.isWide := by
  cases o with
  | pseudo x =>
    rw [Frame.placeOf]
    split <;> exact ⟨rfl, rfl, rfl⟩
  | _ => exact ⟨rfl, rfl, rfl⟩

/-- An instruction still fits when its variables have been given their places. -/
theorem Instr.Fits.relocate (frame : Frame) : ∀ {i : Instr}, i.Fits → (i.relocate (frame.placeOf M)).Fits
  | .mov .., h | .movsx .., h | .binary .., h | .cmp .., h | .unary .., h | .idiv .., h | .setcc .., h
  | .push _, h => by
    simpa [Instr.relocate, Instr.mapOperands, Instr.Fits, frame.placeOf_kind] using h
  | .cdq _, h | .jmp _, h | .jcc .., h | .label _, h | .call _, h | .ret, h => h

/-! ## Programs -/

/-- All stages of one function. -/
theorem Function.stages_encodable {g : Ir.Function} {f₀ f₁ f₂ : Function} {M' : SymbolTable} {size : Int}
    (hg : ∀ i ∈ g.code, i.IsUniform T) (hselect : Function.ofIr T g = .ok f₀) (hplaced : f₀.PlacedAs M f₁ size)
    (hsize : M'.frameSize? f₀.name = some size) (hfinish : f₁.finish M' = .ok f₂) : ∀ i ∈ f₂.code, i.IsEncodable := by
  obtain ⟨frame, _, _, hvars, hf₁⟩ := hplaced
  have hname : f₁.name = f₀.name := by rw [hf₁]
  have hcode : f₁.code = f₀.code.map (Instr.relocate (frame.placeOf M)) := by rw [hf₁]
  obtain ⟨_, hcode₂⟩ := (Function.finish_code (hname ▸ hsize)).of_ok hfinish
  rw [hcode₂]
  refine List.forall_mem_append.2 ⟨legalCode_encodable ⟨fun _ => rfl, rfl, rfl⟩ ?_, fun j hj => ?_⟩
  · simp [Instr.operands, Operand.isPseudo]
  obtain ⟨i, hi, hj⟩ := List.mem_flatMap.1 hj
  have hfits : i.Fits := by
    rw [hcode] at hi
    obtain ⟨i₀, hi₀, rfl⟩ := List.mem_map.1 hi
    exact ((Function.ofIr_fits hg).of_ok hselect i₀ hi₀).relocate frame
  exact legalCode_encodable hfits (fun o ho => Operand.isPseudo_of_varsIn (hvars i hi o ho)) j hj

/-- Every instruction of a finished program can be encoded, if the types of its intermediate code go together. -/
theorem Program.finish_encodable {M' : SymbolTable} {p : Ir.Program} {q q' r : Program}
    (huniform : ∀ g ∈ p.functions, ∀ i ∈ g.code, i.IsUniform T) (hselect : Program.ofIr T p = .ok (q, M))
    (hslots : q.assignSlots M = .ok (q', M')) (hfinish : q'.finish M' = .ok r) :
    ∀ f ∈ r.functions, ∀ i ∈ f.code, i.IsEncodable := by
  obtain ⟨_, _, hplaced⟩ := (Program.assignSlots_lays q M).of_ok hslots
  have hstages := forall₂_comp (forall₂_comp ((Program.ofIr_functions p).of_ok hselect) hplaced)
    ((Program.finish_functions q' M').of_ok hfinish)
  refine forall_of_forall₂ (hstages.imp ?_)
  rintro g f₂ ⟨f₁, ⟨f₀, ⟨hg, hf₀⟩, size, hsize, hf₁⟩, hf₂⟩
  exact Function.stages_encodable (huniform g hg) hf₀ hf₁ hsize hf₂

end Select

/-- Constants of more than 32 bits, texts and variables in memory, wherever their types allow for them. -/
def crowded : Ir.Program where
  functions := [{
    name := "f"
    isGlobal := true
    params := ["a"]
    code :=
      [.signExtend (.int 7) (.var "total"), .signExtend (.var "a") (.var "b"),
        .binary (.arith .mul) (.long 4294967296) (.var "total") (.var "b"),
        .binary (.arith .sub) (.var "b") (.long 4294967297) (.var "total"),
        .binary (.arith .div) (.long 4294967298) (.long 4294967299) (.var "b"),
        .binary (.compare .lt) (.var "total") (.long 4294967300) (.var "a"),
        .binary (.compare .eq) (.str "left") (.str "right") (.var "a"),
        .unary .negate (.long 4294967301) (.var "b"), .truncate (.long 4294967302) (.var "a"),
        .copy (.str "text") (.var "s"), .jumpIfZero (.long 4294967303) "done",
        .call "g" [.long 4294967304, .str "one", .int 3, .var "a", .var "b", .var "s", .long 4294967305, .str "eight",
          .var "total"] (.var "a"),
        .label "done", .ret (.var "a")] }]
  externals := ["g"]

/-- What is known of the names in it. -/
def crowdedSymbols : Khel.SymbolTable :=
  ⟨[("f", ⟨.fn [.int32] .int32, .function true true⟩),
    ("g", ⟨.fn [.int64, .string, .int32, .int32, .int64, .string, .int64, .string, .int64] .int32,
      .function false true⟩),
    ("a", ⟨.int32, .automatic⟩), ("b", ⟨.int64, .automatic⟩), ("s", ⟨.string, .automatic⟩),
    ("total", ⟨.int64, .static .tentative false⟩)]⟩

theorem crowded_isUniform : ∀ g ∈ crowded.functions, ∀ i ∈ g.code, i.IsUniform crowdedSymbols := by
  have ha : (Value.var "a").IsVarOf crowdedSymbols .int32 := ⟨⟨rfl, rfl⟩, _, rfl⟩
  have hb : (Value.var "b").IsVarOf crowdedSymbols .int64 := ⟨⟨rfl, rfl⟩, _, rfl⟩
  have hs : (Value.var "s").IsVarOf crowdedSymbols .string := ⟨⟨rfl, rfl⟩, _, rfl⟩
  have htotal : (Value.var "total").IsVarOf crowdedSymbols .int64 := ⟨⟨rfl, rfl⟩, _, rfl⟩
  refine List.forall_mem_singleton.2 ?_
  simp only [List.forall_mem_cons]
  exact ⟨⟨⟨rfl, rfl⟩, htotal⟩, ⟨ha.1, hb⟩, ⟨.int64, rfl, ⟨rfl, rfl⟩, htotal.1, hb⟩,
    ⟨.int64, rfl, hb.1, ⟨rfl, rfl⟩, htotal⟩, ⟨.int64, rfl, ⟨rfl, rfl⟩, ⟨rfl, rfl⟩, hb⟩,
    ⟨⟨.int64, htotal.1, rfl, rfl⟩, ha⟩, ⟨⟨.string, ⟨rfl, rfl⟩, rfl, rfl⟩, ha⟩,
    ⟨⟨.int64, rfl, rfl, rfl⟩, .int64, rfl, hb⟩, ⟨⟨rfl, rfl⟩, ha⟩, ⟨.string, ⟨rfl, rfl⟩, hs⟩, trivial, ha.2, trivial,
    trivial, by simp⟩

/-- Fourteen instructions become fifty-nine, and all of them can be encoded. -/
theorem crowded_encodable : ∃ q M q' M' r, Program.ofIr crowdedSymbols crowded = .ok (q, M) ∧
    q.assignSlots M = .ok (q', M') ∧ q'.finish M' = .ok r ∧ r.functions.map (·.code.length) = [59] ∧
    ∀ f ∈ r.functions, ∀ i ∈ f.code, i.IsEncodable :=
  ⟨_, _, _, _, _, rfl, rfl, rfl, rfl, Program.finish_encodable crowded_isUniform rfl rfl rfl⟩

end Machine

end Khel
