import Khel.Machine.Latin
import Khel.Machine.Legal
import Khel.Proofs.Machine.Selectable

/-!
# Every variable finds its place

Slot assignment replaces each variable of selected code by a place, and the stages behind it bring no variable back. A
frame can be recorded once for each function, so the names of the functions have to differ.

* `Machine.assignAllSlots_yields`: slots are assigned, no variable is left, and every function has its frame.
* `Machine.Program.finish_yields`: what is placed can be made legal.
* `Machine.Program.latinize_yields`: only a character without a Latin spelling stops what is placed and legal.
-/

namespace Khel.Machine

/-- No operand is a variable. -/
def Placed (code : List Instr) : Prop := CodeVarsIn (fun _ => False) code

section Operands

variable {vars vars' : String → Prop}

/-- Replacing operands one after the other, for any judgment `J` on computations that allows for steps. -/
theorem Instr.mapOperands_rule {m : Type → Type} [Monad m] (J : ∀ {α : Type}, m α → (α → Prop) → Prop)
    (pure : ∀ {α : Type} {a : α} {Q : α → Prop}, Q a → J (Pure.pure a) Q)
    (bind : ∀ {α β : Type} {x : m α} {g : α → m β} {P : α → Prop} {Q : β → Prop}, J x P → (∀ a, P a → J (g a) Q) →
      J (x >>= g) Q)
    {f : Operand → m Operand} (hf : ∀ o, o.VarsIn vars → J (f o) (·.VarsIn vars')) (i : Instr) (hi : i.VarsIn vars) :
    J (i.mapOperands f) (·.VarsIn vars') := by
  cases i with
  | mov _ a b | movsx a b | binary _ _ a b | cmp _ a b =>
    refine bind (hf a (hi a (by simp [Instr.operands]))) fun a' ha => ?_
    refine bind (hf b (hi b (by simp [Instr.operands]))) fun b' hb => pure ?_
    simp [Instr.VarsIn, Instr.operands, ha, hb]
  | unary _ _ a | idiv _ a | setcc _ a | push a =>
    refine bind (hf a (hi a (by simp [Instr.operands]))) fun a' ha => pure ?_
    simp [Instr.VarsIn, Instr.operands, ha]
  | cdq _ | jmp _ | jcc _ _ | label _ | call _ | ret => exact pure (by simp [Instr.VarsIn, Instr.operands])

end Operands

/-! ## Slots -/

section Slots

variable {M : SymbolTable} {vars : String → Prop} {E : Fault → Prop}

theorem slotFor_ensures (name : String) (width : Width) (frame : Frame) :
    Ensures (slotFor name width) frame E fun _ _ => True := by
  refine .get_bind ?_
  split
  · exact .pure trivial
  · exact .set_bind (.pure trivial)

/-- An object is given a place. -/
theorem Operand.place_ensures (hM : ∀ x, vars x → ∃ width isStatic, M.get? x = some (.object width isStatic))
    (o : Operand) (ho : o.VarsIn vars) (frame : Frame) :
    Ensures (o.place M) frame E fun o' _ => o'.VarsIn fun _ => False := by
  cases o with
  | pseudo x =>
    obtain ⟨width, isStatic, hx⟩ := hM x (Operand.varsIn_pseudo.1 ho)
    rw [Operand.place, hx]
    cases isStatic with
    | true => exact .pure (Operand.varsIn_data x)
    | false => exact .bind (slotFor_ensures x width frame) fun offset _ _ => .pure (Operand.varsIn_stack offset)
  | imm _ | reg _ | stack _ | data _ | str _ => exact .pure (by simp)

theorem placeAll_ensures (hM : ∀ x, vars x → ∃ width isStatic, M.get? x = some (.object width isStatic)) :
    ∀ (code : List Instr) (frame : Frame), CodeVarsIn vars code →
      Ensures (placeAll M code) frame E fun code' _ => Placed code'
  | [], _, _ => .pure codeVarsIn_nil
  | i :: is, frame, h => by
    obtain ⟨hi, his⟩ := codeVarsIn_cons.1 h
    have hone := Instr.mapOperands_rule (fun m Q => ∀ frame, Ensures m frame E fun a _ => Q a) (fun h _ => .pure h)
      (fun hx hg frame => .bind (hx frame) fun a frame' ha => hg a ha frame') (Operand.place_ensures hM) i hi
    refine .bind (hone frame) fun i' frame' hi' => ?_
    exact .bind (placeAll_ensures hM is frame' his) fun is' _ his' => .pure (codeVarsIn_cons.2 ⟨hi', his'⟩)

theorem Function.assignSlots_yields (hM : ∀ x, vars x → ∃ width isStatic, M.get? x = some (.object width isStatic))
    {f : Function} (hf : CodeVarsIn vars f.code) :
    Yields (f.assignSlots M) E fun r => r.1.name = f.name ∧ Placed r.1.code :=
  .bind (placeAll_ensures hM f.code {} hf) fun _ hcode => .pure ⟨rfl, hcode⟩

theorem SymbolTable.setFrameSize_yields {x y : String} (hxy : x = y) {isDefined : Bool}
    (hy : M.get? y = some (.function isDefined none)) (size : Int) :
    Yields (M.setFrameSize x size) E fun M' => M' = M.set y (.function isDefined (some size)) := by
  rw [SymbolTable.setFrameSize, hxy, hy]
  exact .pure rfl

/-- The slots of functions are assigned. Only the symbols of the functions change, and each gets its frame. -/
theorem assignAllSlots_yields : ∀ (fs : List Function) {M : SymbolTable},
    (∀ x, vars x → ∃ width isStatic, M.get? x = some (.object width isStatic)) →
    (∀ f ∈ fs, ∃ isDefined, M.get? f.name = some (.function isDefined none)) → (fs.map Function.name).Nodup →
    (∀ f ∈ fs, CodeVarsIn vars f.code) →
    Yields (assignAllSlots M fs) E fun r =>
      (∀ f ∈ r.1, Placed f.code ∧ ∃ size, r.2.frameSize? f.name = some size) ∧
        ∀ x, x ∉ fs.map Function.name → r.2.get? x = M.get? x
  | [], _, _, _, _, _ => .pure ⟨by simp, by simp⟩
  | f :: fs, M, hM, hfun, hnodup, hcode => by
    obtain ⟨⟨isDefined, hf⟩, hfs⟩ := List.forall_mem_cons.1 hfun
    obtain ⟨hcodeF, hcodeFs⟩ := List.forall_mem_cons.1 hcode
    obtain ⟨hnew, hnodup⟩ := List.nodup_cons.1 hnodup
    refine .bind (Function.assignSlots_yields hM hcodeF) ?_
    rintro ⟨f', size⟩ ⟨hname, hplaced⟩
    replace hname : f'.name = f.name := hname
    refine .bind (SymbolTable.setFrameSize_yields hname hf size) ?_
    rintro _ rfl
    -- A variable is no function, and the other functions have other names.
    have hM' : ∀ x, vars x → ∃ width isStatic,
        (M.set f.name (.function isDefined (some size))).get? x = some (.object width isStatic) := by
      intro x hx
      obtain ⟨width, isStatic, hobj⟩ := hM x hx
      refine ⟨width, isStatic, ?_⟩
      rw [Table.get?_set, if_neg, hobj]
      rintro rfl
      rw [hf] at hobj
      cases hobj
    have hfs' : ∀ g ∈ fs, ∃ isDefined',
        (M.set f.name (.function isDefined (some size))).get? g.name = some (.function isDefined' none) := by
      intro g hg
      obtain ⟨isDefined', hdef⟩ := hfs g hg
      refine ⟨isDefined', ?_⟩
      rw [Table.get?_set, if_neg, hdef]
      intro he
      exact hnew (he ▸ List.mem_map_of_mem hg)
    refine .bind (assignAllSlots_yields fs hM' hfs' hnodup hcodeFs) ?_
    rintro ⟨fs', M'⟩ ⟨hall, hkeep⟩
    refine .pure ⟨List.forall_mem_cons.2 ⟨⟨hplaced, size, ?_⟩, hall⟩, fun x hx => ?_⟩
    · have : M'.get? f.name = some (.function isDefined (some size)) := by
        rw [hkeep f.name hnew, Table.get?_set, if_pos rfl]
      rw [SymbolTable.frameSize?, hname, this]
    · simp only [List.map_cons, List.mem_cons, not_or] at hx
      rw [hkeep x hx.2, Table.get?_set, if_neg (Ne.symm hx.1)]

/-- The slots of a program are assigned. -/
theorem Program.assignSlots_yields {T : Khel.SymbolTable} {p : Program} (hM : M.Represents T)
    (hfun : ∀ f ∈ p.functions, ∃ t, T.HasFunction f.name t) (hnodup : (p.functions.map Function.name).Nodup)
    (hcode : ∀ f ∈ p.functions, CodeVarsIn T.IsObject f.code) :
    Yields (p.assignSlots M) E fun r =>
      ∀ f ∈ r.1.functions, Placed f.code ∧ ∃ size, r.2.frameSize? f.name = some size := by
  have hdeclared : ∀ f ∈ p.functions, ∃ isDefined, M.get? f.name = some (.function isDefined none) := by
    intro f hf
    obtain ⟨t, ht⟩ := hfun f hf
    exact hM.functions f.name t ht
  exact .bind (assignAllSlots_yields p.functions hM.objects hdeclared hnodup hcode) fun _ hr => .pure hr.1

end Slots

/-! ## Legal code -/

section Legal

variable {vars : String → Prop}

theorem loadText_varsIn {scratch o : Operand} (hs : scratch.VarsIn vars) (ho : o.VarsIn vars) :
    CodeVarsIn vars (loadText scratch o).1 ∧ (loadText scratch o).2.VarsIn vars := by
  unfold loadText
  split <;> simp [Instr.VarsIn, Instr.operands, hs, ho]

theorem viaRegister_varsIn (needed : Bool) (width : Width) {scratch o : Operand} (hs : scratch.VarsIn vars)
    (ho : o.VarsIn vars) :
    CodeVarsIn vars (viaRegister needed width scratch o).1 ∧ (viaRegister needed width scratch o).2.VarsIn vars := by
  unfold viaRegister
  split <;> simp [Instr.VarsIn, Instr.operands, hs, ho]

theorem varsIn_srcScratch : srcScratch.VarsIn vars := Operand.varsIn_reg _

theorem varsIn_dstScratch : dstScratch.VarsIn vars := Operand.varsIn_reg _

/-- Loading texts names no variable that was not named before. -/
theorem loadTexts_varsIn (i : Instr) (hi : i.VarsIn vars) :
    CodeVarsIn vars (loadTexts i).1 ∧ (loadTexts i).2.VarsIn vars := by
  cases i with
  | cmp w a b =>
    have ha := loadText_varsIn varsIn_srcScratch (hi a (by simp [Instr.operands]))
    have hb := loadText_varsIn varsIn_dstScratch (hi b (by simp [Instr.operands]))
    simp [loadTexts, Instr.VarsIn, Instr.operands, ha, hb]
  | binary op w a b =>
    have ha := loadText_varsIn varsIn_srcScratch (hi a (by simp [Instr.operands]))
    have hb := hi b (by simp [Instr.operands])
    simp [loadTexts, Instr.VarsIn, Instr.operands, ha, hb]
  | idiv w a =>
    have ha := loadText_varsIn varsIn_srcScratch (hi a (by simp [Instr.operands]))
    simp [loadTexts, Instr.VarsIn, Instr.operands, ha]
  | _ => exact ⟨codeVarsIn_nil, hi⟩

/-- Neither does what makes operands legal. -/
theorem legalOperands_varsIn (i : Instr) (hi : i.VarsIn vars) : CodeVarsIn vars (legalOperands i) := by
  have hone : CodeVarsIn vars [i] := codeVarsIn_cons.2 ⟨hi, codeVarsIn_nil⟩
  cases i with
  | mov w src dst =>
    simp only [Instr.VarsIn, Instr.operands, List.forall_mem_cons] at hi
    rw [legalOperands]
    unfold legalMov
    split
    · split <;> simp [Instr.VarsIn, Instr.operands, hi, varsIn_srcScratch]
    · exact hone
  | movsx src dst =>
    simp only [Instr.VarsIn, Instr.operands, List.forall_mem_cons] at hi
    have hs := viaRegister_varsIn src.isImm .long varsIn_srcScratch hi.1
    rw [legalOperands, legalMovsx]
    dsimp only
    split <;> simp [Instr.VarsIn, Instr.operands, hs, hi, varsIn_dstScratch]
  | cmp w left right =>
    simp only [Instr.VarsIn, Instr.operands, List.forall_mem_cons] at hi
    have hl := viaRegister_varsIn left.isLargeImm w varsIn_srcScratch hi.1
    have hr := viaRegister_varsIn right.isImm w varsIn_dstScratch hi.2.1
    simp [legalOperands, legalCmp, Instr.VarsIn, Instr.operands, hl, hr]
  | push arg =>
    have ha := viaRegister_varsIn arg.isLargeImm .quad varsIn_srcScratch (hi arg (by simp [Instr.operands]))
    simp [legalOperands, legalPush, Instr.VarsIn, Instr.operands, ha]
  | idiv w arg =>
    have ha := viaRegister_varsIn arg.isImm w varsIn_srcScratch (hi arg (by simp [Instr.operands]))
    simp [legalOperands, legalIdiv, Instr.VarsIn, Instr.operands, ha]
  | binary op w src dst =>
    simp only [Instr.VarsIn, Instr.operands, List.forall_mem_cons] at hi
    have hs := viaRegister_varsIn (w = .quad && src.isLargeImm) w varsIn_srcScratch hi.1
    rw [legalOperands, legalBinary]
    dsimp only
    split <;> simp [Instr.VarsIn, Instr.operands, hs, hi, varsIn_dstScratch]
  | _ => exact hone

/-- Nor does the splitting of an instruction with two operands in memory. -/
theorem splitMemory_varsIn (i : Instr) (hi : i.VarsIn vars) : CodeVarsIn vars (splitMemory i) := by
  have hone : CodeVarsIn vars [i] := codeVarsIn_cons.2 ⟨hi, codeVarsIn_nil⟩
  cases i with
  | mov _ a b | cmp _ a b | binary _ _ a b =>
    simp only [Instr.VarsIn, Instr.operands, List.forall_mem_cons] at hi
    rw [splitMemory]
    split
    · simp [Instr.VarsIn, Instr.operands, hi, varsIn_srcScratch]
    · exact hone
  | _ => exact hone

theorem legalCode_varsIn (i : Instr) (hi : i.VarsIn vars) : CodeVarsIn vars (legalCode i) := by
  obtain ⟨hloads, hrest⟩ := loadTexts_varsIn i hi
  have hall := codeVarsIn_append.2 ⟨hloads, legalOperands_varsIn _ hrest⟩
  intro k hk
  obtain ⟨j, hj, hk⟩ := List.mem_flatMap.1 hk
  exact splitMemory_varsIn j (hall j hj) k hk

variable {E : Fault → Prop}

theorem firstPseudo?_of_placed : ∀ {os : List Operand}, (∀ o ∈ os, o.VarsIn fun _ => False) → firstPseudo? os = none
  | [], _ => rfl
  | o :: os, h => by
    obtain ⟨ho, hos⟩ := List.forall_mem_cons.1 h
    cases o with
    | pseudo x => exact (Operand.varsIn_pseudo.1 ho).elim
    | imm _ | reg _ | stack _ | data _ | str _ => exact (firstPseudo?_of_placed hos : firstPseudo? os = none)

theorem legalize_yields : ∀ {code : List Instr}, Placed code → Yields (legalize code) E Placed
  | [], _ => .pure codeVarsIn_nil
  | i :: is, h => by
    obtain ⟨hi, his⟩ := codeVarsIn_cons.1 h
    unfold legalize
    rw [firstPseudo?_of_placed hi]
    exact .bind (legalize_yields his) fun code hcode => .pure (codeVarsIn_append.2 ⟨legalCode_varsIn i hi, hcode⟩)

/-- What is placed and has a frame can be made legal. -/
theorem Program.finish_yields {p : Program} {M : SymbolTable}
    (h : ∀ f ∈ p.functions, Placed f.code ∧ ∃ size, M.frameSize? f.name = some size) :
    Yields (p.finish M) E fun p' => ∀ f ∈ p'.functions, Placed f.code := by
  have hone : ∀ f ∈ p.functions, Yields (f.finish M) E fun f' => Placed f'.code := by
    intro f hf
    obtain ⟨hplaced, size, hsize⟩ := h f hf
    have hframe : Placed (f.allocate size).code := codeVarsIn_cons.2 ⟨by simp [Instr.VarsIn, Instr.operands], hplaced⟩
    rw [Function.finish, hsize]
    exact .bind (legalize_yields hframe) fun code hcode => .pure hcode
  exact .bind (.mapM_all hone) fun fs hfs => .pure hfs

end Legal

/-! ## Latin names -/

section Latin

/-- A character has no Latin spelling. -/
def LacksLatin (f : Fault) : Prop := ∃ c, f = .noLatinFor c

theorem latinChars_yields : ∀ cs : List Char, Yields (Text.latinChars cs) LacksLatin fun _ => True
  | [] => .pure trivial
  | c :: cs => by
    unfold Text.latinChars
    split
    · exact .bind (latinChars_yields cs) fun _ _ => .pure trivial
    · exact .throw ⟨c, rfl⟩

theorem latin_yields (name : String) : Yields (Text.latin name) LacksLatin fun _ => True :=
  .bind (latinChars_yields name.toList) fun _ _ => .pure trivial

theorem Operand.latinize_yields {vars : String → Prop} (o : Operand) (ho : o.VarsIn vars) :
    Yields o.latinize LacksLatin (·.VarsIn vars) := by
  cases o with
  | data x => exact .bind (latin_yields x) fun name _ => .pure (Operand.varsIn_data name)
  | _ => exact .pure ho

theorem Instr.latinize_yields {vars : String → Prop} (i : Instr) (hi : i.VarsIn vars) :
    Yields i.latinize LacksLatin (·.VarsIn vars) := by
  unfold Instr.latinize
  split
  · next x => exact .bind (latin_yields x) fun _ _ => .pure (by simp [Instr.VarsIn, Instr.operands])
  · next x => exact .bind (latin_yields x) fun _ _ => .pure (by simp [Instr.VarsIn, Instr.operands])
  · next x => exact .bind (latin_yields x) fun _ _ => .pure (by simp [Instr.VarsIn, Instr.operands])
  · next x => exact .bind (latin_yields x) fun _ _ => .pure (by simp [Instr.VarsIn, Instr.operands])
  · exact Instr.mapOperands_rule (fun m Q => Yields m LacksLatin Q) .pure .bind Operand.latinize_yields i hi

/-- Only a character without a Latin spelling stops what is placed. -/
theorem Program.latinize_yields {p : Program} (h : ∀ f ∈ p.functions, Placed f.code) :
    Yields p.latinize LacksLatin fun p' => ∀ f ∈ p'.functions, Placed f.code := by
  have hone : ∀ f ∈ p.functions, Yields f.latinize LacksLatin fun f' => Placed f'.code := by
    intro f hf
    refine .bind (latin_yields f.name) fun name _ => ?_
    exact .bind (.mapM_all fun i hi => Instr.latinize_yields i (h f hf i hi)) fun code hcode => .pure hcode
  have hstatic : ∀ v ∈ p.statics, Yields v.latinize LacksLatin fun _ => True := fun v _ =>
    .bind (latin_yields v.name) fun _ _ => .pure trivial
  refine .bind (.mapM_all hone) fun functions hfunctions => ?_
  refine .bind (.mapM_all hstatic) fun statics _ => ?_
  exact .bind (.mapM_all fun x _ => latin_yields x) fun externals _ => .pure hfunctions

end Latin

end Khel.Machine
